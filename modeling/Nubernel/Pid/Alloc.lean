import Nubernel.Pid.Model

/-! # Pid allocation: the scan

Which pid `alloc_pidmap` returns. The scan goes up from the last pid to `pid_max`
and then from `RESERVED_PIDS` up to where it began, map by map. What it does not
look at again is `last_pid` itself, unless that is the first or the last pid of its
map or the scan began at `RESERVED_PIDS`.
-/

open Function

namespace Nubernel.Pid

open Bitmap

/-! ## The maps as one set of pids -/

/-- The bit of a map; all are clear while there is no page. -/
def Pidmap.bit (m : Pidmap) (k : Nat) : Bool :=
  match m.page with
  | none => false
  | some page => page k

/-- The pid is allocated. -/
def Used (ns : Namespace) (pid : Nat) : Prop :=
  (ns.pidmap (pid / BITS_PER_PAGE)).bit (pid % BITS_PER_PAGE) = true

instance (ns : Namespace) (pid : Nat) : Decidable (Used ns pid) :=
  inferInstanceAs (Decidable (_ = true))

/-- `nr_free` counts the bits that are clear. -/
def Counted (ns : Namespace) : Prop :=
  ∀ i, (ns.pidmap i).nr_free = zeros (ns.pidmap i).bit BITS_PER_PAGE

/-- The same pids are allocated; pages may have been added. -/
structure Same (ns ns' : Namespace) : Prop where
  bit : ∀ i k, (ns'.pidmap i).bit k = (ns.pidmap i).bit k
  nr_free : ∀ i, (ns'.pidmap i).nr_free = (ns.pidmap i).nr_free
  last : ns'.last_pid = ns.last_pid

theorem Same.refl (ns : Namespace) : Same ns ns := ⟨fun _ _ => rfl, fun _ => rfl, rfl⟩

theorem Same.trans {ns ns' ns'' : Namespace} (h : Same ns ns') (h' : Same ns' ns'') :
    Same ns ns'' :=
  ⟨fun i k => (h'.bit i k).trans (h.bit i k), fun i => (h'.nr_free i).trans (h.nr_free i),
    h'.last.trans h.last⟩

/-- The namespace after `pid` has been allocated. -/
structure Taken (ns : Namespace) (pid : Nat) (ns' : Namespace) : Prop where
  used : ∀ q, Used ns' q ↔ Used ns q ∨ q = pid
  nr_free : ∀ i, (ns'.pidmap i).nr_free =
    (ns.pidmap i).nr_free - if i = pid / BITS_PER_PAGE then 1 else 0
  counted : (ns.pidmap (pid / BITS_PER_PAGE)).nr_free ≠ 0
  last : ns'.last_pid = pid

section maps
variable {ns ns' : Namespace} {map offset pid : Nat}

section
variable (h : offset < BITS_PER_PAGE)
include h

theorem mk_pid_div : mk_pid map offset / BITS_PER_PAGE = map := by
  unfold mk_pid BITS_PER_PAGE at *
  omega

theorem mk_pid_mod : mk_pid map offset % BITS_PER_PAGE = offset := by
  unfold mk_pid BITS_PER_PAGE at *
  omega

theorem used_mk_pid :
    Used ns (mk_pid map offset) ↔ (ns.pidmap map).bit offset = true := by
  unfold Used
  rw [mk_pid_div h, mk_pid_mod h]

end

theorem Counted.full (hc : Counted ns) (hzero : (ns.pidmap map).nr_free = 0)
    (h : offset < BITS_PER_PAGE) : Used ns (mk_pid map offset) := by
  rw [hc map, zeros, List.countP_eq_zero] at hzero
  rw [used_mk_pid h]
  have hbit := hzero offset (List.mem_range.mpr h)
  simpa using hbit

theorem Same.used (hs : Same ns ns') (pid : Nat) : Used ns' pid ↔ Used ns pid := by
  unfold Used
  rw [hs.bit]

theorem Same.counted (hs : Same ns ns') (hc : Counted ns) : Counted ns' := by
  intro i
  rw [hs.nr_free, hc i]
  exact zeros_congr fun k _ => (hs.bit i k).symm

/-- The page that a round works with. -/
theorem zeroed_page (m : Pidmap) : ∃ page, (zeroed m).page = some page ∧ ∀ k, page k = m.bit k := by
  unfold zeroed Pidmap.bit
  cases hp : m.page with
  | none => exact ⟨_, rfl, fun _ => rfl⟩
  | some page => exact ⟨page, hp, fun _ => rfl⟩

variable {page : Nat → Bool}

theorem same_page (hpage : ∀ k, page k = (ns.pidmap map).bit k) :
    Same ns { ns with
      pidmap := update ns.pidmap map { ns.pidmap map with page := some page } } := by
  refine ⟨?_, ?_, rfl⟩
  · intro i k
    by_cases hi : i = map
    · subst hi
      simp only [update_self]
      exact hpage k
    simp only [update_of_ne hi]
  intro i
  by_cases hi : i = map
  · subst hi
    simp
  simp only [update_of_ne hi]

theorem take_taken (hpage : ∀ k, page k = (ns.pidmap map).bit k) (h : offset < BITS_PER_PAGE)
    (hfree : (ns.pidmap map).nr_free ≠ 0) :
    Taken ns (mk_pid map offset) (take ns map offset page) := by
  refine ⟨?_, ?_, ?_, rfl⟩
  · intro q
    unfold Used take
    by_cases hi : q / BITS_PER_PAGE = map
    · rw [hi]
      simp only [update_self, Pidmap.bit]
      by_cases hk : q % BITS_PER_PAGE = offset
      · rw [hk, update_self]
        refine iff_of_true rfl (.inr ?_)
        rw [← hi, ← hk]
        exact (Nat.div_add_mod' q BITS_PER_PAGE).symm
      have hne : q ≠ mk_pid map offset := fun heq => hk (by rw [heq, mk_pid_mod h])
      rw [update_of_ne hk, hpage]
      exact ⟨.inl, fun hor => hor.resolve_right hne⟩
    have hne : q ≠ mk_pid map offset := fun heq => hi (by rw [heq, mk_pid_div h])
    simp only [update_of_ne hi]
    exact ⟨.inl, fun hor => hor.resolve_right hne⟩
  · intro i
    rw [mk_pid_div h]
    unfold take
    by_cases hi : i = map
    · subst hi
      simp
    simp only [update_of_ne hi, if_neg hi, Nat.sub_zero]
  rw [mk_pid_div h]
  exact hfree

theorem Same.taken (hs : Same ns ns') {ns'' : Namespace} (ht : Taken ns' pid ns'') :
    Taken ns pid ns'' := by
  refine ⟨?_, ?_, ?_, ht.last⟩
  · intro q
    rw [ht.used, hs.used]
  · intro i
    rw [ht.nr_free, hs.nr_free]
  rw [← hs.nr_free]
  exact ht.counted

end maps

/-! ## One round -/

/-- `pid` is the first one from `a` on that is free. -/
def FirstFree (ns : Namespace) (a pid : Nat) : Prop :=
  a ≤ pid ∧ ¬Used ns pid ∧ ∀ q, a ≤ q → q < pid → Used ns q

theorem Same.firstFree {ns ns' : Namespace} {a pid : Nat} (h : Same ns ns')
    (hff : FirstFree ns' a pid) : FirstFree ns a pid :=
  ⟨hff.1, fun hused => hff.2.1 ((h.used _).mpr hused),
    fun q hq hqp => (h.used q).mp (hff.2.2 q hq hqp)⟩

/-- All pids from `a` up to `b` are allocated. -/
def AllUsed (ns : Namespace) (a b : Nat) : Prop := ∀ q, a ≤ q → q < b → Used ns q

theorem Same.allUsed {ns ns' : Namespace} {a b : Nat} (h : Same ns ns') (hall : AllUsed ns' a b) :
    AllUsed ns a b :=
  fun q hq hqb => (h.used q).mp (hall q hq hqb)

section round
variable {ns : Namespace} {map offset pid_max last rounds : Nat}

/-- What the loop over one map finds. -/
theorem scan_spec {more : Nat → Bool} (h : offset < BITS_PER_PAGE) :
    scan more page map (BITS_PER_PAGE + 1) offset =
      let z := find_next_offset page offset
      if z < BITS_PER_PAGE ∧ (z = offset ∨ more (mk_pid map z) = true) then some z else none := by
  have hfirst : First (fun i => !page i) offset BITS_PER_PAGE (find_next_offset page offset) :=
    findNext_first (Nat.le_of_lt h)
  rw [scan]
  by_cases hclear : page offset = false
  · have hz : find_next_offset page offset = offset := by
      have hle := hfirst.le_of_mem (Nat.le_refl offset) (by rw [hclear]; rfl)
      have hge := hfirst.lower
      omega
    rw [if_pos hclear, hz, if_pos ⟨h, .inl rfl⟩]
  have hne : find_next_offset page offset ≠ offset := by
    intro heq
    have hfound := hfirst.found (by rw [heq]; exact h)
    rw [heq] at hfound
    simp only [Bool.not_eq_true'] at hfound
    exact hclear hfound
  rw [if_neg hclear]
  by_cases hmore : find_next_offset page offset < BITS_PER_PAGE ∧
      more (mk_pid map (find_next_offset page offset)) = true
  · have hbit := hfirst.found hmore.1
    simp only [Bool.not_eq_true'] at hbit
    rw [if_pos hmore, if_pos ⟨hmore.1, .inr hmore.2⟩, show BITS_PER_PAGE = 32767 + 1 from rfl, scan,
      if_pos hbit]
  rw [if_neg hmore, if_neg]
  rintro ⟨hlt, heq | hm⟩
  · exact hne heq
  · exact hmore ⟨hlt, hm⟩

/-- The round looks at the pid: it is below `pid_max`, and in the last round it is
below `last_pid`, or the scan began with a new map. -/
def Within (pid_max last rounds pid : Nat) : Prop :=
  pid < pid_max ∧ (rounds ≠ 0 ∨ pid < last ∨ (last + 1) % BITS_PER_PAGE = 0)

instance : Decidable (Within pid_max last rounds pid) := inferInstanceAs (Decidable (_ ∧ _))

/-- Where the scan goes on after a map. -/
def advance (pid_max last rounds map : Nat) (ns : Namespace) : Option Nat × Namespace :=
  if map < (pid_max - 1) / BITS_PER_PAGE then
    alloc_loop true pid_max last rounds (map + 1) 0 ns
  else if last = RESERVED_PIDS then (none, ns)
  else alloc_loop true pid_max last rounds 0 RESERVED_PIDS ns

/-- **One round**: the first free pid of the rest of the map is taken, if the round
looks at it; else the scan goes on. -/
theorem alloc_loop_round (hc : Counted ns) (h : offset < BITS_PER_PAGE) :
    (∃ pid ns', alloc_loop true pid_max last (rounds + 1) map offset ns = (some pid, ns') ∧
      FirstFree ns (mk_pid map offset) pid ∧ pid < mk_pid (map + 1) 0 ∧
      (pid = mk_pid map offset ∨ Within pid_max last rounds pid) ∧ Taken ns pid ns') ∨
    ∃ ns', alloc_loop true pid_max last (rounds + 1) map offset ns =
        advance pid_max last rounds map ns' ∧ Same ns ns' ∧
      (AllUsed ns (mk_pid map offset) (mk_pid (map + 1) 0) ∨
        ∃ pid, FirstFree ns (mk_pid map offset) pid ∧ pid < mk_pid (map + 1) 0 ∧
          pid ≠ mk_pid map offset ∧ ¬Within pid_max last rounds pid) := by
  obtain ⟨page, hpage, hbits⟩ := zeroed_page (ns.pidmap map)
  have hsame := same_page hbits
  have hend : mk_pid (map + 1) 0 = mk_pid map BITS_PER_PAGE := by
    unfold mk_pid
    rw [Nat.succ_mul, Nat.add_zero]
  -- The pids of the map as offsets.
  have hoffset : ∀ q, mk_pid map offset ≤ q → q < mk_pid (map + 1) 0 →
      ∃ k, offset ≤ k ∧ k < BITS_PER_PAGE ∧ q = mk_pid map k := by
    intro q hq hlt
    unfold mk_pid at *
    exact ⟨q - map * BITS_PER_PAGE, by omega, by omega, by omega⟩
  have hfirst : First (fun i => !page i) offset BITS_PER_PAGE (find_next_offset page offset) :=
    findNext_first (Nat.le_of_lt h)
  have hbefore : ∀ k, offset ≤ k → k < find_next_offset page offset → Used ns (mk_pid map k) := by
    intro k hk hlt
    have hbit := hfirst.before k hk hlt
    have hupper := hfirst.upper
    rw [used_mk_pid (by omega), ← hbits]
    simpa using hbit
  generalize hz : find_next_offset page offset = z at *
  have hff : z < BITS_PER_PAGE → FirstFree ns (mk_pid map offset) (mk_pid map z) := by
    intro hlt
    have hlower := hfirst.lower
    refine ⟨by unfold mk_pid; omega, ?_, ?_⟩
    · rw [used_mk_pid hlt, ← hbits]
      have hbit := hfirst.found hlt
      simpa using hbit
    intro q hq hqz
    obtain ⟨k, hk, hkB, rfl⟩ := hoffset q hq (by rw [hend]; unfold mk_pid at *; omega)
    exact hbefore k hk (by unfold mk_pid at hqz; omega)
  rw [alloc_loop, if_pos rfl, hpage]
  simp only [update_self]
  by_cases hzero : (ns.pidmap map).nr_free = 0
  · right
    rw [if_neg (not_not_intro hzero)]
    refine ⟨_, rfl, hsame, .inl ?_⟩
    intro q hq hlt
    obtain ⟨k, _, hk, rfl⟩ := hoffset q hq hlt
    exact hc.full hzero hk
  rw [if_pos hzero, scan_spec h]
  simp only [hz, decide_eq_true_eq]
  by_cases hcond : z < BITS_PER_PAGE ∧ (z = offset ∨ Within pid_max last rounds (mk_pid map z))
  · left
    have htake := @take_taken { ns with
      pidmap := update ns.pidmap map { ns.pidmap map with page := some page } }
      map z page (fun k => by simp [Pidmap.bit]) hcond.1 (by simpa using hzero)
    refine ⟨mk_pid map z, _, ?_, hff hcond.1, ?_, ?_, hsame.taken htake⟩
    · have hc' := hcond
      unfold Within at hc'
      rw [if_pos hc']
    · rw [hend]
      unfold mk_pid
      omega
    rcases hcond.2 with heq | hw
    · exact .inl (by rw [heq])
    · exact .inr hw
  right
  have hc' := hcond
  unfold Within at hc'
  rw [if_neg hc']
  refine ⟨_, rfl, hsame, ?_⟩
  by_cases hlt : z < BITS_PER_PAGE
  · right
    refine ⟨mk_pid map z, hff hlt, by rw [hend]; unfold mk_pid; omega, ?_, ?_⟩
    · intro heq
      exact hcond ⟨hlt, .inl (by unfold mk_pid at heq; omega)⟩
    intro hw
    exact hcond ⟨hlt, .inr hw⟩
  left
  intro q hq hq'
  obtain ⟨k, hk, hkB, rfl⟩ := hoffset q hq hq'
  exact hbefore k hk (by omega)

/-- After the last round there is nothing more. -/
theorem advance_zero (pid_max last map : Nat) (ns : Namespace) :
    advance pid_max last 0 map ns = (none, ns) := by
  unfold advance
  split
  · rfl
  · split <;> rfl

theorem AllUsed.append {a b c : Nat} (h : AllUsed ns a b) (h' : AllUsed ns b c) :
    AllUsed ns a c := by
  intro q hq hqc
  by_cases hlt : q < b
  · exact h q hq hlt
  · exact h' q (by omega) hqc

theorem AllUsed.firstFree {a b pid : Nat} (h : AllUsed ns a b) (hf : FirstFree ns b pid)
    (hle : a ≤ b) : FirstFree ns a pid := by
  refine ⟨Nat.le_trans hle hf.1, hf.2.1, ?_⟩
  exact h.append hf.2.2

theorem FirstFree.ge_of_allUsed {a b pid : Nat} (hf : FirstFree ns a pid) (h : AllUsed ns a b) :
    b ≤ pid := by
  by_contra hlt
  exact hf.2.1 (h pid hf.1 (by omega))

end round

/-! ## Several rounds -/

section sweep
variable {ns : Namespace} {map offset pid_max last rounds : Nat}

/-- The maps below the last one are below `pid_max`. -/
theorem mk_pid_succ_lt (hmap : map < (pid_max - 1) / BITS_PER_PAGE) :
    mk_pid (map + 1) 0 < pid_max := by
  unfold mk_pid BITS_PER_PAGE at *
  omega

theorem mk_pid_le_succ (h : offset < BITS_PER_PAGE) : mk_pid map offset ≤ mk_pid (map + 1) 0 := by
  unfold mk_pid BITS_PER_PAGE at *
  omega

/-- One round, with a map to go on to and not the last one. -/
theorem alloc_loop_next (hc : Counted ns) (h : offset < BITS_PER_PAGE)
    (hmap : map < (pid_max - 1) / BITS_PER_PAGE)
    (hfull : rounds ≠ 0 ∨ (last + 1) % BITS_PER_PAGE = 0) :
    (∃ pid ns', alloc_loop true pid_max last (rounds + 1) map offset ns = (some pid, ns') ∧
      FirstFree ns (mk_pid map offset) pid ∧ pid < mk_pid (map + 1) 0 ∧ Taken ns pid ns') ∨
    ∃ ns', alloc_loop true pid_max last (rounds + 1) map offset ns =
        alloc_loop true pid_max last rounds (map + 1) 0 ns' ∧ Same ns ns' ∧
      AllUsed ns (mk_pid map offset) (mk_pid (map + 1) 0) := by
  rcases alloc_loop_round hc h with
    ⟨pid, ns', heq, hff, hlt, _, htaken⟩ | ⟨ns', heq, hsame, hused⟩
  · exact .inl ⟨pid, ns', heq, hff, hlt, htaken⟩
  rw [heq, advance, if_pos hmap]
  refine .inr ⟨ns', rfl, hsame, ?_⟩
  rcases hused with hall | ⟨pid, hff, hlt, _, hout⟩
  · exact hall
  · exact absurd ⟨Nat.lt_trans hlt (mk_pid_succ_lt hmap), hfull.imp_right .inr⟩ hout

/-- **Some rounds in a row**, with maps to go on to and without the last one. -/
theorem alloc_loop_sweep {j : Nat} (hc : Counted ns) (h : offset < BITS_PER_PAGE)
    (hmap : map + j ≤ (pid_max - 1) / BITS_PER_PAGE)
    (hfull : rounds ≠ 0 ∨ (last + 1) % BITS_PER_PAGE = 0) :
    (∃ pid ns', alloc_loop true pid_max last (rounds + j) map offset ns = (some pid, ns') ∧
      FirstFree ns (mk_pid map offset) pid ∧ pid < mk_pid (map + j) 0 ∧ Taken ns pid ns') ∨
    ∃ ns', alloc_loop true pid_max last (rounds + j) map offset ns =
        alloc_loop true pid_max last rounds (map + j) (if j = 0 then offset else 0) ns' ∧
      Same ns ns' ∧
      AllUsed ns (mk_pid map offset) (mk_pid (map + j) (if j = 0 then offset else 0)) := by
  induction j generalizing map offset ns with
  | zero => exact .inr ⟨ns, rfl, .refl ns, fun q hq hlt => absurd hlt (Nat.not_lt.mpr hq)⟩
  | succ j ih => ?_
  have hend : mk_pid (map + 1) 0 ≤ mk_pid (map + (j + 1)) 0 := by
    exact Nat.add_le_add_right (Nat.mul_le_mul_right _ (by omega)) 0
  rcases @alloc_loop_next ns map offset pid_max last (rounds + j) hc h (by omega)
      (hfull.imp_left fun hne => by omega) with
    ⟨pid, ns', heq, hff, hlt, htaken⟩ | ⟨ns', heq, hsame, hall⟩
  · exact .inl ⟨pid, ns', heq, hff, by omega, htaken⟩
  rw [← Nat.add_assoc, heq]
  rcases @ih ns' (map + 1) 0 (hsame.counted hc) (by decide) (by omega) with
    ⟨pid, ns'', heq', hff, hlt, htaken⟩ | ⟨ns'', heq', hsame', hused'⟩
  · left
    refine ⟨pid, ns'', heq', hall.firstFree (hsame.firstFree hff) (mk_pid_le_succ h), ?_,
      hsame.taken htaken⟩
    rw [show map + (j + 1) = map + 1 + j by omega]
    exact hlt
  right
  rw [if_neg (Nat.succ_ne_zero j), show map + (j + 1) = map + 1 + j by omega]
  have hoff : (if j = 0 then 0 else 0) = 0 := by split <;> rfl
  rw [hoff] at heq' hused'
  exact ⟨ns'', heq', hsame.trans hsame', hall.append (hsame.allUsed hused')⟩

/-- The scan begins again at `RESERVED_PIDS`. -/
def wrap (pid_max last rounds : Nat) (ns : Namespace) : Option Nat × Namespace :=
  if last = RESERVED_PIDS then (none, ns)
  else alloc_loop true pid_max last rounds 0 RESERVED_PIDS ns

/-- **Up to `pid_max`.** -/
theorem alloc_loop_climb (hc : Counted ns) (h : offset < BITS_PER_PAGE)
    (hstart : mk_pid map offset < pid_max)
    (hfull : rounds ≠ 0 ∨ (last + 1) % BITS_PER_PAGE = 0) :
    (∃ pid ns', alloc_loop true pid_max last
        (rounds + 1 + ((pid_max - 1) / BITS_PER_PAGE - map)) map offset ns = (some pid, ns') ∧
      FirstFree ns (mk_pid map offset) pid ∧ pid < pid_max ∧ Taken ns pid ns') ∨
    ∃ ns', alloc_loop true pid_max last
        (rounds + 1 + ((pid_max - 1) / BITS_PER_PAGE - map)) map offset ns =
        wrap pid_max last rounds ns' ∧
      Same ns ns' ∧ AllUsed ns (mk_pid map offset) pid_max := by
  generalize hj : (pid_max - 1) / BITS_PER_PAGE - map = j
  induction j generalizing map offset ns with
  | zero =>
    -- The last map.
    rcases alloc_loop_round hc h with
      ⟨pid, ns', heq, hff, _, hcond, htaken⟩ | ⟨ns', heq, hsame, hrest⟩
    · refine .inl ⟨pid, ns', heq, hff, ?_, htaken⟩
      rcases hcond with rfl | hw
      · exact hstart
      · exact hw.1
    refine .inr ⟨ns', ?_, hsame, ?_⟩
    · rw [heq, advance, if_neg (by omega)]
      rfl
    intro q hq hqm
    rcases hrest with hall | ⟨pid, hff, _, _, hout⟩
    · refine hall q hq ?_
      unfold mk_pid BITS_PER_PAGE at *
      omega
    have hge : pid_max ≤ pid := by
      by_contra hlt
      exact hout ⟨by omega, hfull.imp_right .inr⟩
    exact hff.2.2 q hq (by omega)
  | succ j ih => ?_
  have hmap : map < (pid_max - 1) / BITS_PER_PAGE := by omega
  have hnext := mk_pid_succ_lt hmap
  rcases @alloc_loop_next ns map offset pid_max last (rounds + 1 + j) hc h hmap
      (.inl (by omega)) with
    ⟨pid, ns', heq, hff, hlt, htaken⟩ | ⟨ns', heq, hsame, hall⟩
  · exact .inl ⟨pid, ns', heq, hff, by omega, htaken⟩
  rw [← Nat.add_assoc, heq]
  rcases ih (hsame.counted hc) (by decide) hnext (by omega) with
    ⟨pid, ns'', heq', hff, hlt, htaken⟩ | ⟨ns'', heq', hsame', hused⟩
  · exact .inl ⟨pid, ns'', heq', hall.firstFree (hsame.firstFree hff) (mk_pid_le_succ h), hlt,
      hsame.taken htaken⟩
  exact .inr ⟨ns'', heq', hsame.trans hsame', hall.append (hsame.allUsed hused)⟩

end sweep

end Nubernel.Pid
