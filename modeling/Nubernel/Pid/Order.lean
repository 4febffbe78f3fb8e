import Nubernel.Framework.System
import Nubernel.Pid.Alloc

/-! # Pid allocation: the order of the scan

`alloc_pidmap` against the order in which pids are to be given out: from the last
pid up to `pid_max`, and then from `RESERVED_PIDS` up to the last pid.
-/

open Function List LTS Nat

namespace Nubernel.Pid

/-! ## The order -/

/-- The pids in the order in which they are tried. -/
def order (last pid_max : Nat) : List Nat :=
  range' (last + 1) (pid_max - (last + 1)) ++
    range' RESERVED_PIDS (min (last + 1) pid_max - RESERVED_PIDS)

/-- The first pid of the order that is free. -/
def firstInOrder (ns : Namespace) (pid_max : Nat) : Option Nat :=
  (order ns.last_pid pid_max).find? fun pid => !decide (Used ns pid)

section order
variable {ns : Namespace} {pid_max pid a n : Nat}

theorem find_range_some (h : FirstFree ns a pid) (hlt : pid < a + n) :
    (range' a n).find? (fun q => !decide (Used ns q)) = some pid := by
  induction n generalizing a with
  | zero =>
    have hle := h.1
    omega
  | succ n ih => ?_
  rw [range'_succ, find?_cons]
  by_cases hused : Used ns a
  · have hne : pid ≠ a := fun heq => h.2.1 (by rw [heq]; exact hused)
    rw [decide_eq_true hused, Bool.not_true]
    refine ih ⟨?_, h.2.1, ?_⟩ (by omega)
    · have hle := h.1
      omega
    intro q hq hqp
    exact h.2.2 q (by omega) hqp
  have heq : pid = a := by
    by_contra hne
    have hle := h.1
    exact hused (h.2.2 a (Nat.le_refl a) (by omega))
  rw [decide_eq_false hused, Bool.not_false, heq]

theorem find_range_none (h : AllUsed ns a (a + n)) :
    (range' a n).find? (fun q => !decide (Used ns q)) = none := by
  refine find?_eq_none.mpr fun q hq => ?_
  obtain ⟨hle, hlt⟩ := mem_range'_1.mp hq
  rw [decide_eq_true (h q hle hlt)]
  exact Bool.false_ne_true

theorem firstInOrder_above (h : FirstFree ns (ns.last_pid + 1) pid) (hlt : pid < pid_max) :
    firstInOrder ns pid_max = some pid := by
  unfold firstInOrder order
  rw [find?_append, find_range_some h (by omega)]
  rfl

/-- No free pid above the last one, but one from `RESERVED_PIDS` on. -/
theorem firstInOrder_below (hused : AllUsed ns (ns.last_pid + 1) pid_max)
    (h : FirstFree ns RESERVED_PIDS pid) (hlast : pid ≤ ns.last_pid) (hlt : pid < pid_max) :
    firstInOrder ns pid_max = some pid := by
  unfold firstInOrder order
  rw [find?_append, find_range_none (fun q hq hqm => hused q hq (by omega)),
    find_range_some h (by omega)]
  rfl

theorem firstInOrder_none (hused : AllUsed ns (ns.last_pid + 1) pid_max)
    (hused' : AllUsed ns RESERVED_PIDS (min (ns.last_pid + 1) pid_max)) :
    firstInOrder ns pid_max = none := by
  unfold firstInOrder order
  rw [find?_append, find_range_none (fun q hq hqm => hused q hq (by omega)),
    find_range_none (fun q hq hqm => hused' q hq (by omega))]
  rfl

end order

/-! ## What the scan finds -/

/-- The scan ends before it comes back to `last_pid`. -/
def LeftOut (last pid_max : Nat) : Prop :=
  RESERVED_PIDS ≤ last ∧ last + 1 < pid_max ∧ last % BITS_PER_PAGE ≠ 0 ∧
    (last + 1) % BITS_PER_PAGE ≠ 0

/-- The results that the scan may have: the first free pid of the order; or nothing, if
there is none or if it is `last_pid` and left out. -/
def Outcome (ns : Namespace) (pid_max : Nat) (result : Option Nat × Namespace) : Prop :=
  (∃ pid ns', result = (some pid, ns') ∧ firstInOrder ns pid_max = some pid ∧
    Taken ns pid ns' ∧ ¬(LeftOut ns.last_pid pid_max ∧ pid = ns.last_pid)) ∨
  ∃ ns', result = (none, ns') ∧ Same ns ns' ∧ (firstInOrder ns pid_max = none ∨
    LeftOut ns.last_pid pid_max ∧ firstInOrder ns pid_max = some ns.last_pid)

section outcome
variable {ns ns' : Namespace} {pid_max : Nat}

theorem mk_pid_div_mod (pid : Nat) : mk_pid (pid / BITS_PER_PAGE) (pid % BITS_PER_PAGE) = pid :=
  div_add_mod' pid BITS_PER_PAGE

theorem mk_pid_zero (off : Nat) : mk_pid 0 off = off := by
  unfold mk_pid
  omega

theorem outcome_from_reserved (hc : Counted ns) (hmax : RESERVED_PIDS < pid_max)
    (hlast : pid_max ≤ ns.last_pid + 1) :
    Outcome ns pid_max (alloc_loop true pid_max ns.last_pid
      ((pid_max - 1) / BITS_PER_PAGE + 1 + 1) 0 RESERVED_PIDS ns) := by
  have habove : AllUsed ns (ns.last_pid + 1) pid_max := fun q hq hlt => by omega
  have hout : ¬LeftOut ns.last_pid pid_max := fun h => by
    have hlt := h.2.1
    omega
  have hrounds : (pid_max - 1) / BITS_PER_PAGE + 1 + 1 =
      1 + 1 + ((pid_max - 1) / BITS_PER_PAGE - 0) := by
    generalize (pid_max - 1) / BITS_PER_PAGE = top
    omega
  rw [hrounds]
  rcases @alloc_loop_climb ns 0 RESERVED_PIDS pid_max ns.last_pid 1 hc (by decide)
      (by rw [mk_pid_zero]; exact hmax) (.inl (by decide)) with
    ⟨pid, ns', heq, hff, hlt, htaken⟩ | ⟨ns', heq, hsame, hused⟩
  · exact .inl ⟨pid, ns', heq, firstInOrder_below habove hff (by omega) hlt, htaken,
      fun h => hout h.1⟩
  have hnone := firstInOrder_none habove fun q hq hqm => hused q hq (by omega)
  right
  rw [heq, wrap]
  by_cases hreserved : ns.last_pid = RESERVED_PIDS
  · rw [if_pos hreserved]
    exact ⟨ns', rfl, hsame, .inl hnone⟩
  -- One round is left, which finds nothing.
  rw [if_neg hreserved]
  rcases @alloc_loop_round ns' 0 RESERVED_PIDS pid_max ns.last_pid 0 (hsame.counted hc)
      (by decide) with ⟨pid, ns'', _, hff, _, hcond, _⟩ | ⟨ns'', heq', hsame', _⟩
  · rw [mk_pid_zero] at hff hcond
    have hge : pid_max ≤ pid := hff.ge_of_allUsed fun q hq hqm =>
      (hsame.used q).mpr (hused q hq hqm)
    rcases hcond with rfl | hw
    · omega
    · exact absurd hw.1 (by omega)
  rw [heq', advance_zero]
  exact ⟨ns'', rfl, hsame.trans hsame', .inl hnone⟩

section middle
variable (hlast : ns.last_pid + 1 < pid_max) (hmod : (ns.last_pid + 1) % BITS_PER_PAGE ≠ 0)
variable (habove : AllUsed ns (ns.last_pid + 1) pid_max)
include hlast hmod habove

/-- Below `last_pid` all are allocated: nothing is left but `last_pid` itself. -/
theorem outcome_none (hsame : Same ns ns') (hused : AllUsed ns RESERVED_PIDS ns.last_pid)
    (hedge : ns.last_pid % BITS_PER_PAGE = 0 → RESERVED_PIDS ≤ ns.last_pid → Used ns ns.last_pid) :
    Outcome ns pid_max (none, ns') := by
  refine .inr ⟨ns', rfl, hsame, ?_⟩
  by_cases hfree : RESERVED_PIDS ≤ ns.last_pid ∧ ¬Used ns ns.last_pid
  · right
    exact ⟨⟨hfree.1, hlast, fun h => hfree.2 (hedge h hfree.1), hmod⟩,
      firstInOrder_below habove ⟨hfree.1, hfree.2, hused⟩ (Nat.le_refl _) (by omega)⟩
  left
  refine firstInOrder_none habove fun q hq hqm => ?_
  by_cases heq : q = ns.last_pid
  · by_contra hnot
    exact hfree ⟨by omega, by rw [← heq]; exact hnot⟩
  exact hused q hq (by omega)

/-- The last round, in the map of `last_pid`, begins with `b`. That is `last_pid` only if it
is the first pid of the map. -/
theorem outcome_last_round {m off b : Nat} (hc : Counted ns) (hsame : Same ns ns')
    (hoff : off < BITS_PER_PAGE) (hb : mk_pid m off = b) (hle : RESERVED_PIDS ≤ b ∧ b < pid_max)
    (hused : AllUsed ns RESERVED_PIDS b) (hend : ns.last_pid < mk_pid (m + 1) 0)
    (hfirst : RESERVED_PIDS ≤ ns.last_pid → (b = ns.last_pid ↔ ns.last_pid % BITS_PER_PAGE = 0)) :
    Outcome ns pid_max (alloc_loop true pid_max ns.last_pid 1 m off ns') := by
  rcases @alloc_loop_round ns' m _ pid_max ns.last_pid 0 (hsame.counted hc) hoff with
    ⟨pid, ns₃, heq, hff, _, hcond, htaken⟩ | ⟨ns₃, heq, hsame₃, hnot⟩
  · rw [hb] at hff hcond
    have hff' : FirstFree ns RESERVED_PIDS pid := hused.firstFree (hsame.firstFree hff) hle.1
    have hpid : pid < ns.last_pid ∨ pid = ns.last_pid ∧ ns.last_pid % BITS_PER_PAGE = 0 := by
      rcases hcond with rfl | hw
      · rcases Nat.lt_trichotomy pid ns.last_pid with hlt | heq | hgt
        · exact .inl hlt
        · exact .inr ⟨heq, (hfirst (by omega)).mp heq⟩
        · exact absurd (habove pid hgt (by omega)) hff'.2.1
      rcases hw.2 with h | h | h
      · exact absurd rfl h
      · exact .inl h
      · exact absurd h hmod
    refine .inl ⟨pid, ns₃, heq, firstInOrder_below habove hff' (by omega) (by omega),
      hsame.taken htaken, fun h => ?_⟩
    have h1 := h.1.2.2.1
    rcases hpid with hlt | ⟨_, hz⟩
    · omega
    · exact h1 hz
  rw [heq, advance_zero]
  rw [hb] at hnot
  have hmap : AllUsed ns b ns.last_pid ∧ (ns.last_pid % BITS_PER_PAGE = 0 →
      RESERVED_PIDS ≤ ns.last_pid → Used ns ns.last_pid) := by
    rcases hnot with hall | ⟨pid, hff, _, hne, hw⟩
    · refine ⟨fun q hq hqm => (hsame.used q).mp (hall q hq (by omega)), ?_⟩
      intro hz hge
      exact (hsame.used _).mp (hall _ (Nat.le_of_eq ((hfirst hge).mpr hz)) hend)
    have hge : ns.last_pid ≤ pid := by
      by_contra hlt
      exact hw ⟨by omega, .inr (.inl (by omega))⟩
    refine ⟨fun q hq hqm => (hsame.used q).mp (hff.2.2 q hq (by omega)), ?_⟩
    intro hz hge'
    have heq := (hfirst hge').mpr hz
    refine (hsame.used _).mp (hff.2.2 _ (Nat.le_of_eq heq) ?_)
    omega
  exact outcome_none hlast hmod habove (hsame.trans hsame₃) (hused.append hmap.1) hmap.2

end middle

/-- The scan up to the last map and, from `RESERVED_PIDS` on, to the map that it began
with, with `r` rounds left for that one. -/
theorem outcome_around {m r : Nat} (hc : Counted ns) (hlast : ns.last_pid + 1 < pid_max)
    (hm : (ns.last_pid + 1) / BITS_PER_PAGE = m)
    (hfull : r ≠ 0 ∨ (ns.last_pid + 1) % BITS_PER_PAGE = 0)
    (hnone : ∀ ns', ns.last_pid = RESERVED_PIDS → AllUsed ns (ns.last_pid + 1) pid_max →
      Same ns ns' → Outcome ns pid_max (none, ns'))
    (hrest : ∀ ns', ns.last_pid ≠ RESERVED_PIDS → AllUsed ns (ns.last_pid + 1) pid_max →
      Same ns ns' →
      AllUsed ns RESERVED_PIDS (mk_pid m (if m = 0 then RESERVED_PIDS else 0)) →
      Outcome ns pid_max (alloc_loop true pid_max ns.last_pid r m
        (if m = 0 then RESERVED_PIDS else 0) ns')) :
    Outcome ns pid_max (alloc_loop true pid_max ns.last_pid
      ((pid_max - 1) / BITS_PER_PAGE + 1 + r) m ((ns.last_pid + 1) % BITS_PER_PAGE) ns) := by
  have hstart : mk_pid m ((ns.last_pid + 1) % BITS_PER_PAGE) = ns.last_pid + 1 := by
    rw [← hm]
    exact mk_pid_div_mod _
  have hmM : m ≤ (pid_max - 1) / BITS_PER_PAGE := by
    rw [← hm]
    exact Nat.div_le_div_right (by omega)
  rw [show (pid_max - 1) / BITS_PER_PAGE + 1 + r =
    m + r + 1 + ((pid_max - 1) / BITS_PER_PAGE - m) by omega]
  rcases @alloc_loop_climb ns m _ pid_max ns.last_pid (m + r) hc (mod_lt _ (by decide))
      (by rw [hstart]; exact hlast) (hfull.imp_left fun hr => by omega) with
    ⟨pid, ns', heq, hff, hlt, htaken⟩ | ⟨ns', heq, hsame, habove⟩
  · rw [hstart] at hff
    refine .inl ⟨pid, ns', heq, firstInOrder_above hff hlt, htaken, fun h => ?_⟩
    have hle := hff.1
    omega
  rw [hstart] at habove
  rw [heq, wrap]
  by_cases hreserved : ns.last_pid = RESERVED_PIDS
  · rw [if_pos hreserved]
    exact hnone ns' hreserved habove hsame
  rw [if_neg hreserved, Nat.add_comm m r]
  rcases @alloc_loop_sweep ns' 0 RESERVED_PIDS pid_max ns.last_pid r m (hsame.counted hc)
      (by decide) (by omega) hfull with
    ⟨pid, ns'', heq', hff, hlt, htaken⟩ | ⟨ns'', heq', hsame', hused⟩
  · -- The first pid of the map is not above `last_pid + 1`.
    rw [Nat.zero_add] at hlt
    unfold mk_pid at hlt hstart
    refine .inl ⟨pid, ns'', heq', firstInOrder_below habove (hsame.firstFree hff) (by omega)
      (by omega), hsame.taken htaken, fun h => ?_⟩
    have hmod := h.1.2.2.2
    omega
  rw [Nat.zero_add, mk_pid_zero] at hused
  rw [Nat.zero_add] at heq'
  rw [heq']
  exact hrest ns'' hreserved habove (hsame.trans hsame') (hsame.allUsed hused)

theorem outcome_from_middle (hc : Counted ns) (hmax : RESERVED_PIDS < pid_max)
    (hlast : ns.last_pid + 1 < pid_max)
    (hmod : (ns.last_pid + 1) % BITS_PER_PAGE ≠ 0) :
    Outcome ns pid_max (alloc_loop true pid_max ns.last_pid
      ((pid_max - 1) / BITS_PER_PAGE + 1 + 1) ((ns.last_pid + 1) / BITS_PER_PAGE)
      ((ns.last_pid + 1) % BITS_PER_PAGE) ns) := by
  generalize hm : (ns.last_pid + 1) / BITS_PER_PAGE = m
  refine outcome_around hc hlast hm (.inl Nat.one_ne_zero) ?_ ?_
  · intro ns' hreserved habove hsame
    refine outcome_none hlast hmod habove hsame (fun q hq hqm => by omega) fun h => ?_
    rw [hreserved] at h
    exact absurd h (by decide)
  intro ns' hreserved habove hsame hused
  have hbase : mk_pid m 0 ≤ ns.last_pid ∧ ns.last_pid < mk_pid (m + 1) 0 ∧
      (mk_pid m 0 = ns.last_pid ↔ ns.last_pid % BITS_PER_PAGE = 0) := by
    unfold mk_pid BITS_PER_PAGE at *
    omega
  refine outcome_last_round hlast hmod habove hc hsame ?_ rfl ?_ hused hbase.2.1 ?_
  · split <;> decide
  · -- The map of `RESERVED_PIDS` begins with it.
    split
    · rename_i hzero
      rw [hzero, mk_pid_zero]
      exact ⟨Nat.le_refl _, hmax⟩
    refine ⟨?_, by omega⟩
    unfold mk_pid RESERVED_PIDS BITS_PER_PAGE
    omega
  intro hge
  split
  · rename_i hzero
    rw [← hbase.2.2, hzero, mk_pid_zero, mk_pid_zero]
    omega
  exact hbase.2.2

theorem outcome_from_map (hc : Counted ns) (hlast : ns.last_pid + 1 < pid_max)
    (hmod : (ns.last_pid + 1) % BITS_PER_PAGE = 0) :
    Outcome ns pid_max (alloc_loop true pid_max ns.last_pid
      ((pid_max - 1) / BITS_PER_PAGE + 1) ((ns.last_pid + 1) / BITS_PER_PAGE) 0 ns) := by
  rw [← hmod]
  generalize hm : (ns.last_pid + 1) / BITS_PER_PAGE = m
  refine outcome_around (r := 0) hc hlast hm (.inr hmod) ?_ ?_
  · intro ns' hreserved
    rw [hreserved] at hmod
    exact absurd hmod (by decide)
  intro ns' _ habove hsame hused
  refine .inr ⟨ns', rfl, hsame, .inl (firstInOrder_none habove fun q hq hqm => hused q hq ?_)⟩
  have hzero : m ≠ 0 := by
    unfold BITS_PER_PAGE at *
    omega
  unfold mk_pid BITS_PER_PAGE at *
  omega

theorem alloc_pidmap_outcome (hc : Counted ns) (hmax : RESERVED_PIDS < pid_max) :
    Outcome ns pid_max (alloc_pidmap true pid_max ns) := by
  unfold alloc_pidmap
  simp only
  rw [show pid_max + BITS_PER_PAGE - 1 = pid_max - 1 + BITS_PER_PAGE by omega,
    add_div_right _ (by decide)]
  by_cases hlast : ns.last_pid + 1 ≥ pid_max
  · rw [if_pos hlast, show RESERVED_PIDS % BITS_PER_PAGE = RESERVED_PIDS by decide,
      show RESERVED_PIDS / BITS_PER_PAGE = 0 by decide, if_neg (by decide), Nat.sub_zero]
    exact outcome_from_reserved hc hmax hlast
  rw [if_neg hlast]
  by_cases hmod : (ns.last_pid + 1) % BITS_PER_PAGE = 0
  · rw [if_pos hmod, hmod, Nat.add_sub_cancel]
    exact outcome_from_map hc (by omega) hmod
  rw [if_neg hmod, Nat.sub_zero]
  exact outcome_from_middle hc hmax (by omega) hmod

end outcome

/-! ## Results -/

/-- A call of `alloc_pidmap` does what it is meant to do: the pid is the first free one
in the order, and it is allocated; and it fails only if there is no free pid from
`RESERVED_PIDS` on. -/
def AllocatesFirst (ns : Namespace) (pid_max : Nat) : Prop :=
  (∀ pid ns', alloc_pidmap true pid_max ns = (some pid, ns') →
    ¬Used ns pid ∧ 1 ≤ pid ∧ pid < pid_max ∧ firstInOrder ns pid_max = some pid ∧
      Taken ns pid ns') ∧
  ∀ ns', alloc_pidmap true pid_max ns = (none, ns') →
    ∀ pid, RESERVED_PIDS ≤ pid → pid < pid_max → Used ns pid

section results
variable {ns : Namespace} {pid_max pid : Nat}

/-- What is first in the order is free and in its range. -/
theorem of_firstInOrder (h : firstInOrder ns pid_max = some pid) :
    ¬Used ns pid ∧ 1 ≤ pid ∧ pid < pid_max := by
  have hmem := mem_of_find?_eq_some h
  have hfree := find?_some h
  unfold order RESERVED_PIDS at hmem
  rw [mem_append, mem_range'_1, mem_range'_1] at hmem
  refine ⟨by simpa using hfree, ?_, ?_⟩ <;> omega

/-- Where nothing is first in the order, all pids from `RESERVED_PIDS` on are in use. -/
theorem used_of_firstInOrder (h : firstInOrder ns pid_max = none) (hle : RESERVED_PIDS ≤ pid)
    (hlt : pid < pid_max) : Used ns pid := by
  have hnot := find?_eq_none.mp h pid ?_
  · simpa using hnot
  unfold order
  rw [mem_append, mem_range'_1, mem_range'_1]
  omega

/-- **`alloc_pidmap` gives out the first free pid of the order**, and fails only if there
is none, exactly if that pid is not `last_pid` in a place where the scan leaves it
out. -/
theorem alloc_pidmap_first_iff (hc : Counted ns) (hmax : RESERVED_PIDS + 1 ≤ pid_max) :
    AllocatesFirst ns pid_max ↔
      ¬(LeftOut ns.last_pid pid_max ∧ firstInOrder ns pid_max = some ns.last_pid) := by
  constructor
  · rintro ⟨_, hnone⟩ ⟨hout, hlast⟩
    obtain ⟨hfree, _, hlt⟩ := of_firstInOrder hlast
    rcases alloc_pidmap_outcome hc hmax with ⟨pid, ns', _, hfirst, _, hnot⟩ | ⟨ns', heq, _⟩
    · rw [hlast, Option.some.injEq] at hfirst
      exact hnot ⟨hout, hfirst.symm⟩
    exact hfree (hnone ns' heq _ hout.1 hlt)
  intro hcond
  rcases alloc_pidmap_outcome hc hmax with
    ⟨pid, ns', heq, hfirst, htaken, _⟩ | ⟨ns', heq, _, hnone | hlast⟩
  · refine ⟨?_, ?_⟩
    · intro pid' ns'' heq'
      rw [heq] at heq'
      obtain ⟨rfl, rfl⟩ : pid = pid' ∧ ns' = ns'' := by simpa using heq'
      obtain ⟨hfree, hpos, hlt⟩ := of_firstInOrder hfirst
      exact ⟨hfree, hpos, hlt, hfirst, htaken⟩
    intro ns'' heq'
    rw [heq] at heq'
    cases heq'
  · refine ⟨?_, ?_⟩
    · intro pid' ns'' heq'
      rw [heq] at heq'
      cases heq'
    intro _ _ q hle hlt
    exact used_of_firstInOrder hnone hle hlt
  · exact absurd hlast hcond

/-- A new namespace. -/
def fresh : Namespace :=
  { pidmap := fun _ => { nr_free := BITS_PER_PAGE, page := none }, last_pid := 0 }

theorem fresh_counted : Counted fresh := by
  intro i
  show BITS_PER_PAGE = (range BITS_PER_PAGE).countP fun _ => true
  rw [countP_true, length_range]

theorem alloc_pidmap_first_iff_fresh : Counted fresh ∧ AllocatesFirst fresh 32768 := by
  refine ⟨fresh_counted, (alloc_pidmap_first_iff fresh_counted (by decide)).mpr ?_⟩
  rintro ⟨hout, _⟩
  exact absurd hout.1 (by decide)

/-- Every pid is allocated except for `last_pid`, which has been freed again. -/
def onlyLast : Namespace :=
  { pidmap := fun _ =>
      { nr_free := Bitmap.zeros (fun k => decide (k ≠ 1000)) BITS_PER_PAGE
        page := some fun k => decide (k ≠ 1000) }
    last_pid := 1000 }

theorem onlyLast_counted : Counted onlyLast := by
  intro i
  have hbit : (onlyLast.pidmap i).bit = fun k => decide (k ≠ 1000) := rfl
  rw [hbit, onlyLast]

theorem alloc_pidmap_leaves_out_last :
    Counted onlyLast ∧ (alloc_pidmap true 32768 onlyLast).1 = none ∧
      RESERVED_PIDS ≤ 1000 ∧ ¬Used onlyLast 1000 := by
  have hused : ∀ q, q < 32768 → q ≠ 1000 → Used onlyLast q := by
    intro q hq hne
    show decide (q % BITS_PER_PAGE ≠ 1000) = true
    rw [mod_eq_of_lt (show q < BITS_PER_PAGE from hq)]
    exact decide_eq_true hne
  have hfree : ¬Used onlyLast 1000 := by decide
  have hfirst : firstInOrder onlyLast 32768 = some 1000 := by
    refine firstInOrder_below ?_ ⟨by decide, hfree, ?_⟩ (Nat.le_refl 1000) (by decide)
    · intro q hq hlt
      have hq : 1001 ≤ q := hq
      exact hused q hlt (by omega)
    intro q _ hlt
    exact hused q (by omega) (by omega)
  refine ⟨onlyLast_counted, ?_, by decide, hfree⟩
  rcases @alloc_pidmap_outcome onlyLast 32768 onlyLast_counted (by decide) with
    ⟨pid, ns', _, hpid, _, hnot⟩ | ⟨ns', heq, _⟩
  · rw [hfirst, Option.some.injEq] at hpid
    refine absurd ⟨?_, hpid.symm⟩ hnot
    exact ⟨by decide, by decide, by decide, by decide⟩
  rw [heq]

theorem free_pidmap_spec (hc : Counted ns) (hused : Used ns pid) :
    Counted (free_pidmap ns pid) ∧ ∀ q, Used (free_pidmap ns pid) q ↔ Used ns q ∧ q ≠ pid := by
  have hlt : pid % BITS_PER_PAGE < BITS_PER_PAGE := mod_lt _ (by decide)
  -- The map has a page, since one of its bits is set.
  obtain ⟨page, hpage⟩ : ∃ page, (ns.pidmap (pid / BITS_PER_PAGE)).page = some page := by
    unfold Used Pidmap.bit at hused
    cases hp : (ns.pidmap (pid / BITS_PER_PAGE)).page with
    | none =>
      rw [hp] at hused
      cases hused
    | some page => exact ⟨page, rfl⟩
  have hbit : ∀ k, (ns.pidmap (pid / BITS_PER_PAGE)).bit k = page k := by
    intro k
    rw [Pidmap.bit, hpage]
  have hnew : ∀ k, ((free_pidmap ns pid).pidmap (pid / BITS_PER_PAGE)).bit k =
      update page (pid % BITS_PER_PAGE) false k := by
    intro k
    unfold free_pidmap Pidmap.bit
    simp [hpage]
  have hother : ∀ i, i ≠ pid / BITS_PER_PAGE → (free_pidmap ns pid).pidmap i = ns.pidmap i := by
    intro i hi
    exact update_of_ne hi _ _
  have hset : page (pid % BITS_PER_PAGE) = true := by
    rw [← hbit]
    exact hused
  refine ⟨?_, ?_⟩
  · intro i
    by_cases hi : i = pid / BITS_PER_PAGE
    · subst hi
      have hcount := Bitmap.zeros_set (p := update page (pid % BITS_PER_PAGE) false) hlt
        (update_self _ _ _)
      rw [update_idem, ← hset, update_eq_self] at hcount
      rw [Bitmap.zeros_congr fun k _ => hnew k, ← hcount,
        ← Bitmap.zeros_congr fun k _ => hbit k, ← hc]
      unfold free_pidmap
      simp
    rw [hother i hi]
    exact hc i
  intro q
  unfold Used
  by_cases hi : q / BITS_PER_PAGE = pid / BITS_PER_PAGE
  · rw [hi, hnew, hbit]
    by_cases hk : q % BITS_PER_PAGE = pid % BITS_PER_PAGE
    · have heq : q = pid := by
        rw [← mk_pid_div_mod q, ← mk_pid_div_mod pid, hi, hk]
      rw [hk, update_self]
      exact iff_of_false Bool.false_ne_true fun h => h.2 heq
    have hne : q ≠ pid := fun heq => hk (by rw [heq])
    rw [update_of_ne hk]
    exact ⟨fun h => ⟨h, hne⟩, fun h => h.1⟩
  have hne : q ≠ pid := fun heq => hi (by rw [heq])
  rw [hother _ hi]
  exact ⟨fun h => ⟨h, hne⟩, fun h => h.1⟩

end results

/-! ## Runs -/

/-- The maps of a new namespace, where pid 0 is reserved. -/
def create_pid_namespace : Namespace := take fresh 0 0 fun _ => false

/-- Pids are allocated, and those that are out are freed. -/
def pids (pid_max : Nat) : System (Namespace × List Nat) (Option Nat) where
  init := fun s => s = (create_pid_namespace, [])
  step := fun s l s' => match l with
    | none =>
      let result := alloc_pidmap true pid_max s.1
      s' = (result.2, result.1.toList ++ s.2)
    | some pid => pid ∈ s.2 ∧ s' = (free_pidmap s.1 pid, s.2.erase pid)

structure PidsOk (pid_max : Nat) (s : Namespace × List Nat) : Prop where
  counted : Counted s.1
  used : ∀ q, Used s.1 q ↔ q = 0 ∨ q ∈ s.2
  nodup : s.2.Nodup
  range : ∀ q ∈ s.2, 1 ≤ q ∧ q < pid_max

variable {ns ns' : Namespace} {pid_max pid : Nat} {s s' : Namespace × List Nat}

theorem Taken.counts (h : Taken ns pid ns') (hc : Counted ns) (hfree : ¬Used ns pid) :
    Counted ns' := by
  intro i
  have hbit : ∀ k < BITS_PER_PAGE, (ns'.pidmap i).bit k =
      if mk_pid i k = pid then true else (ns.pidmap i).bit k := by
    intro k hk
    rw [Bool.eq_iff_iff, ← used_mk_pid hk, h.used, used_mk_pid hk]
    grind
  rw [h.nr_free, hc]
  by_cases hi : i = pid / BITS_PER_PAGE
  · have hlt : pid % BITS_PER_PAGE < BITS_PER_PAGE := mod_lt _ (by decide)
    rw [if_pos hi, hi, ← Bitmap.zeros_set hlt (eq_false_of_ne_true hfree), Nat.add_sub_cancel]
    refine Bitmap.zeros_congr fun k hk => ?_
    rw [← hi, hbit k hk, update_apply]
    refine if_congr ?_ rfl rfl
    unfold mk_pid BITS_PER_PAGE at *
    omega
  rw [if_neg hi, Nat.sub_zero]
  refine Bitmap.zeros_congr fun k hk => ?_
  rw [hbit k hk, if_neg]
  rintro rfl
  exact hi (mk_pid_div hk).symm

theorem PidsOk.init : PidsOk pid_max (create_pid_namespace, []) := by
  have htaken : Taken fresh (mk_pid 0 0) create_pid_namespace :=
    take_taken (fun _ => rfl) (by decide) (by decide)
  have hfree : ∀ q, ¬Used fresh q := fun _ => Bool.false_ne_true
  refine ⟨htaken.counts fresh_counted (hfree _), fun q => ?_, .nil, nofun⟩
  simp [htaken.used, hfree, mk_pid]

theorem PidsOk.step {l : Option Nat} (h : PidsOk pid_max s) (hmax : RESERVED_PIDS < pid_max)
    (hstep : (pids pid_max).step s l s') : PidsOk pid_max s' := by
  have hused := h.used
  match l with
  | none =>
    subst hstep
    rcases alloc_pidmap_outcome h.counted hmax with
      ⟨pid, ns', heq, hfirst, htaken, _⟩ | ⟨ns', heq, hsame, _⟩
    · obtain ⟨hfree, hbounds⟩ := of_firstInOrder hfirst
      have hnew : pid ∉ s.2 := fun hmem => hfree ((hused pid).mpr (.inr hmem))
      rw [heq]
      refine ⟨htaken.counts h.counted hfree, fun q => ?_, nodup_cons.mpr ⟨hnew, h.nodup⟩, ?_⟩
      · rw [htaken.used, hused, or_assoc, or_comm (a := q ∈ s.2)]
        exact or_congr_right mem_cons.symm
      · exact forall_mem_cons.mpr ⟨hbounds, h.range⟩
    rw [heq]
    exact ⟨hsame.counted h.counted, fun q => (hsame.used q).trans (hused q), h.nodup, h.range⟩
  | some pid =>
    obtain ⟨hmem, rfl⟩ := hstep
    obtain ⟨hcounted, hafter⟩ := free_pidmap_spec h.counted ((hused pid).mpr (.inr hmem))
    have hpos := (h.range pid hmem).1
    refine ⟨hcounted, fun q => ?_, h.nodup.erase pid, fun q hq => h.range q (mem_of_mem_erase hq)⟩
    rw [hafter, hused, h.nodup.mem_erase_iff]
    grind

/-- **No pid is given out twice.** In every run the pids in use are pid 0 and those that
are out, each of these once and below `pid_max`, and the counts are right. -/
theorem pids_given_out_once (hmax : RESERVED_PIDS < pid_max) (h : (pids pid_max).Reachable s) :
    PidsOk pid_max s := by
  refine System.invariant ?_ (fun _ _ _ h => h.step hmax) h
  rintro _ rfl
  exact PidsOk.init

theorem pids_given_out_once_two : ∃ s, (pids 32768).Reachable s ∧ s.2 = [2, 1] ∧ PidsOk 32768 s := by
  have h : (pids 32768).Reachable (create_pid_namespace, []) := .of_init rfl
  have h := (h.step (l := none) rfl).step (l := none) rfl
  exact ⟨_, h, rfl, pids_given_out_once (by decide) h⟩

end Nubernel.Pid
