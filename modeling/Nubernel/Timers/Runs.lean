import Nubernel.Timers.Wheel

/-! # timer: runs

Every timer that is not deleted is run once, in the iteration it is due in.
-/

open LTS List

namespace Nubernel.Timers

/-! ## Invariant -/

/-- The timer is in the work list. -/
def World.InWork (w : World) (x : Timer) : Prop := ∃ work, w.running = some work ∧ x ∈ work

/-- The timer is still to be run. -/
def World.Active (w : World) (x : Timer) : Prop := w.base.Mem x ∨ w.InWork x

/-- The timers that were run. -/
def World.ran (w : World) : List Timer := w.log.map Prod.fst

structure Inv (w : World) : Prop where
  wheel : Wheel w.count 0 w.base
  behind : w.count ≤ w.now + 1
  near : w.now < w.count + 2 ^ 31
  work : ∀ work, w.running = some work →
    work.Nodup ∧ ∀ x ∈ work, x.due + 1 = w.count ∧ ¬w.base.Mem x
  ids : ∀ x ∈ w.added, x.id < w.added.length
  word : ∀ x ∈ w.added, x.expires < 2 ^ 32
  known : ∀ x, x ∈ w.added ↔ w.Active x ∨ x ∈ w.deleted ∨ x ∈ w.ran
  active : ∀ x, w.Active x → x ∉ w.deleted ∧ x ∉ w.ran
  apart : ∀ x ∈ w.deleted, x ∉ w.ran
  once : w.ran.Nodup
  punctual : ∀ e ∈ w.log, e.2 = e.1.due

section due
variable {x : Timer}

/-- The iteration with the number `expires`. -/
theorem due_of_not_late (hexp : x.expires < 2 ^ 32) (h : ¬x.late) :
    x.due % 2 ^ 32 = x.expires ∧ x.added ≤ x.due ∧ x.due < x.added + 2 ^ 31 := by
  unfold Timer.due
  rw [if_neg h]
  unfold Timer.late at h
  unfold sub32 at h ⊢
  omega

theorem due_of_late (h : x.late) : x.due = x.added := if_pos h

theorem addable_of_added (hexp : x.expires < 2 ^ 32) : Addable x.added x := by
  by_cases h : x.late
  · have hdue := due_of_late h
    exact ⟨by omega, by omega, .inr ⟨hdue, h⟩⟩
  obtain ⟨hmod, hle, hlt⟩ := due_of_not_late hexp h
  exact ⟨hle, hlt, .inl hmod.symm⟩

end due

/-! ## Steps -/

section steps
variable {w w' : World}

theorem inv_init (h : w.Init) : Inv w := by
  have hmem : ∀ x, ¬w.base.Mem x := by
    rintro x ⟨level, i, hx⟩
    rw [h.empty] at hx
    cases hx
  have hwork : ∀ x, ¬w.InWork x := by
    rintro x ⟨work, hrun, _⟩
    rw [h.running] at hrun
    cases hrun
  have hactive : ∀ x, ¬w.Active x := fun x hx => hx.elim (hmem x) (hwork x)
  have hran : w.ran = [] := by
    unfold World.ran
    rw [h.log]
    rfl
  refine ⟨⟨by rw [h.count]; exact h.jiffies, ?_, ?_, ?_⟩, by rw [h.count]; omega,
    by rw [h.count]; omega, ?_, ?_, ?_, ?_, ?_, ?_, ?_, ?_⟩
  · intro level i x hx
    exact absurd ⟨level, i, hx⟩ (hmem x)
  · intro level i
    rw [h.empty]
    exact nodup_nil
  · intro level i _ _ x hx
    exact absurd ⟨level, i, hx⟩ (hmem x)
  · intro work hrun
    rw [h.running] at hrun
    cases hrun
  · rw [h.added]
    simp
  · rw [h.added]
    simp
  · intro x
    rw [h.added, h.deleted, hran]
    simp [hactive x]
  · intro x hx
    exact absurd hx (hactive x)
  · rw [h.deleted]
    simp
  · rw [hran]
    exact nodup_nil
  rw [h.log]
  simp

section
variable (hinv : Inv w)
include hinv

theorem inv_add {expires : Nat} (hexp : expires < 2 ^ 32) :
    Inv (w.add expires) := by
  let x : Timer := ⟨w.added.length, expires, w.count⟩
  have hfresh : x ∉ w.added := by
    intro hx
    exact Nat.lt_irrefl _ (hinv.ids x hx)
  have hout : ¬w.Active x ∧ x ∉ w.deleted ∧ x ∉ w.ran := by
    have hnot := fun h => hfresh ((hinv.known x).mpr h)
    exact ⟨fun h => hnot (.inl h), fun h => hnot (.inr (.inl h)), fun h => hnot (.inr (.inr h))⟩
  obtain ⟨hwheel, hmem⟩ := internal_add_spec hinv.wheel (@addable_of_added x hexp)
    fun h => hout.1 (.inl h)
  have hactive : ∀ y, (w.add expires).Active y ↔ w.Active y ∨ y = x := by
    intro y
    have hbase : (w.add expires).base.Mem y ↔ w.base.Mem y ∨ y = x := hmem y
    have hwork : (w.add expires).InWork y ↔ w.InWork y := Iff.rfl
    unfold World.Active
    rw [hbase, hwork, or_right_comm]
  refine ⟨hwheel, hinv.behind, hinv.near, ?_, ?_, ?_, ?_, ?_, hinv.apart, hinv.once, hinv.punctual⟩
  · intro work hrun
    obtain ⟨hnodup, hall⟩ := hinv.work work hrun
    refine ⟨hnodup, ?_⟩
    intro y hy
    obtain ⟨hdue, hnot⟩ := hall y hy
    refine ⟨hdue, ?_⟩
    intro hin
    rcases (hmem y).mp hin with hin | rfl
    · exact hnot hin
    · exact hout.1 (.inr ⟨work, hrun, hy⟩)
  · intro y hy
    rcases mem_cons.mp hy with rfl | hy
    · exact Nat.lt_succ_self _
    · exact Nat.lt_succ_of_lt (hinv.ids y hy)
  · exact forall_mem_cons.mpr ⟨hexp, hinv.word⟩
  · intro y
    have hadded : y ∈ (w.add expires).added ↔ y = x ∨ y ∈ w.added := mem_cons
    rw [hadded, hactive, hinv.known, or_right_comm, or_comm]
    exact Iff.rfl
  intro y hy
  rcases (hactive y).mp hy with hy | rfl
  · exact hinv.active y hy
  · exact hout.2

omit hinv in
/-- A timer that is to be run is deleted, and nothing else changes. -/
theorem Inv.delete {x : Timer} {base : Base} {running : Option (List Timer)} (hinv : Inv w)
    (hx : w.Active x) (hwheel : Wheel w.count 0 base)
    (hwork : ∀ work, running = some work →
      work.Nodup ∧ ∀ y ∈ work, y.due + 1 = w.count ∧ ¬base.Mem y)
    (hactive : ∀ y, (base.Mem y ∨ ∃ work, running = some work ∧ y ∈ work) ↔ w.Active y ∧ y ≠ x) :
    Inv { w with base := base, running := running, deleted := x :: w.deleted } := by
  refine ⟨hwheel, hinv.behind, hinv.near, hwork, hinv.ids, hinv.word, ?_, ?_, ?_, hinv.once,
    hinv.punctual⟩
  · intro y
    refine (hinv.known y).trans ?_
    show _ ↔ (base.Mem y ∨ ∃ work, running = some work ∧ y ∈ work) ∨ y ∈ x :: w.deleted ∨ y ∈ w.ran
    rw [hactive, mem_cons]
    by_cases hyx : y = x
    · subst hyx
      exact iff_of_true (.inl hx) (.inr (.inl (.inl rfl)))
    simp [hyx]
  · intro y hy
    obtain ⟨hold, hne⟩ := (hactive y).mp hy
    obtain ⟨hdel, hran⟩ := hinv.active y hold
    exact ⟨fun h => (mem_cons.mp h).elim hne hdel, hran⟩
  intro y hy
  rcases mem_cons.mp hy with rfl | hy
  · exact (hinv.active y hx).2
  · exact hinv.apart y hy

variable {x : Timer} {work : List Timer}

theorem inv_del_vec {level i : Nat} (hx : x ∈ w.base.vec level i) :
    Inv { w with
      base := w.base.setVec level i ((w.base.vec level i).erase x)
      deleted := x :: w.deleted } := by
  have hnodup := hinv.wheel.nodup level i
  have hmem : ∀ y, (w.base.setVec level i ((w.base.vec level i).erase x)).Mem y ↔
      w.base.Mem y ∧ y ≠ x := by
    intro y
    constructor
    · rintro ⟨level', i', hy⟩
      rcases mem_setVec.mp hy with ⟨rfl, rfl, hl⟩ | ⟨hne, hold⟩
      · rw [hnodup.mem_erase_iff] at hl
        exact ⟨⟨level', i', hl.2⟩, hl.1⟩
      refine ⟨⟨level', i', hold⟩, ?_⟩
      rintro rfl
      exact hne (hinv.wheel.unique _ _ _ _ y hold hx)
    rintro ⟨⟨level', i', hy⟩, hne⟩
    by_cases heq : level' = level ∧ i' = i
    · obtain ⟨rfl, rfl⟩ := heq
      exact ⟨level', i', mem_setVec.mpr (.inl ⟨rfl, rfl, (hnodup.mem_erase_iff).mpr ⟨hne, hy⟩⟩)⟩
    exact ⟨level', i', mem_setVec.mpr (.inr ⟨heq, hy⟩)⟩
  refine hinv.delete (.inl ⟨level, i, hx⟩)
    (hinv.wheel.shrink (fun y hy => mem_of_mem_erase hy) (hnodup.erase x)) ?_ ?_
  · intro work hrun
    obtain ⟨hwn, hall⟩ := hinv.work work hrun
    exact ⟨hwn, fun y hy => ⟨(hall y hy).1, fun hin => (hall y hy).2 ((hmem y).mp hin).1⟩⟩
  intro y
  rw [hmem]
  constructor
  · rintro (⟨hin, hne⟩ | ⟨work, hrun, hy⟩)
    · exact ⟨.inl hin, hne⟩
    refine ⟨.inr ⟨work, hrun, hy⟩, ?_⟩
    rintro rfl
    exact ((hinv.work work hrun).2 y hy).2 ⟨level, i, hx⟩
  rintro ⟨hin | hin, hne⟩
  · exact .inl ⟨hin, hne⟩
  · exact .inr hin

theorem inv_del_work (hrun : w.running = some work) (hx : x ∈ work) :
    Inv { w with running := some (work.erase x), deleted := x :: w.deleted } := by
  obtain ⟨hnodup, hall⟩ := hinv.work work hrun
  refine hinv.delete (.inr ⟨work, hrun, hx⟩) hinv.wheel ?_ ?_
  · intro work' heq
    cases heq
    exact ⟨hnodup.erase x, fun y hy => hall y (mem_of_mem_erase hy)⟩
  intro y
  constructor
  · rintro (hin | ⟨work', heq, hy⟩)
    · refine ⟨.inl hin, ?_⟩
      rintro rfl
      exact (hall y hx).2 hin
    cases heq
    rw [hnodup.mem_erase_iff] at hy
    exact ⟨.inr ⟨work, hrun, hy.2⟩, hy.1⟩
  rintro ⟨hin | ⟨work', hrun', hy⟩, hne⟩
  · exact .inl hin
  rw [hrun] at hrun'
  cases hrun'
  exact .inr ⟨_, rfl, (hnodup.mem_erase_iff).mpr ⟨hne, hy⟩⟩

/-- The test of the loop, without wrapping. -/
theorem time_after_eq_iff :
    time_after_eq (w.now % 2 ^ 32) w.base.timer_jiffies = true ↔ w.count ≤ w.now := by
  have hbehind := hinv.behind
  have hnear := hinv.near
  unfold time_after_eq sub32
  rw [hinv.wheel.jiffies, decide_eq_true_eq]
  omega

omit hinv in
theorem wheel_iterate {c : Nat} {b : Base} (h : Wheel c 4 b) :
    Wheel (c + 1) 0 (({ b with timer_jiffies := add32 b.timer_jiffies 1 } : Base).setVec 0
      (c % 256) []) := by
  have hmem : ∀ {level i x}, x ∈ (({ b with timer_jiffies := add32 b.timer_jiffies 1 } : Base).setVec
      0 (c % 256) []).vec level i → x ∈ b.vec level i ∧ ¬(level = 0 ∧ i = c % 256) := by
    intro level i x hx
    rcases mem_setVec.mp hx with ⟨_, _, hnil⟩ | ⟨hne, hold⟩
    · cases hnil
    · exact ⟨hold, hne⟩
  refine ⟨?_, ?_, ?_, ?_⟩
  · show add32 b.timer_jiffies 1 = (c + 1) % 2 ^ 32
    rw [h.jiffies]
    unfold add32
    omega
  · intro level i x hx
    obtain ⟨hold, hne⟩ := hmem hx
    have hsite := h.sites level i x hold
    cases level with
    | zero =>
      obtain ⟨hle, hlt, hi⟩ := hsite
      exact ⟨by omega, by omega, hi⟩
    | succ k => ?_
    obtain ⟨hk, hexp, hlt, hi, hlow, hhigh⟩ := hsite
    rw [if_pos (by omega)] at hlow
    refine ⟨hk, hexp, by omega, hi, ?_, by omega⟩
    rw [if_neg (by omega)]
    exact hlow
  · intro level i
    by_cases heq : level = 0 ∧ i = c % 256
    · obtain ⟨rfl, rfl⟩ := heq
      rw [setVec_same]
      exact nodup_nil
    rw [setVec_other heq]
    exact h.nodup level i
  intro l1 i1 l2 i2 x hx1 hx2
  exact h.unique l1 i1 l2 i2 x (hmem hx1).1 (hmem hx2).1

theorem inv_iterate (hrun : w.running = some []) (hle : w.count ≤ w.now) :
    Inv w.iterate := by
  obtain ⟨hwheel, hmem⟩ := cascades_spec hinv.wheel
  have hindex : w.base.timer_jiffies % TVR_SIZE = w.count % 256 := by
    rw [hinv.wheel.jiffies]
    show w.count % 2 ^ 32 % 256 = w.count % 256
    omega
  have hiter : w.iterate = { w with
      base := ({ cascades w.base with
        timer_jiffies := add32 (cascades w.base).timer_jiffies 1 } : Base).setVec 0
          (w.count % 256) []
      count := w.count + 1
      running := some ((cascades w.base).vec 0 (w.count % 256)) } := by
    unfold World.iterate
    rw [hindex]
  have hnow := wheel_iterate hwheel
  -- The timers of the work list and those that stay in the wheel.
  have hactive : ∀ y, w.iterate.Active y ↔ w.Active y := by
    intro y
    rw [hiter]
    have hidle : ¬w.InWork y := by
      rintro ⟨work, hwork, hy⟩
      rw [hrun] at hwork
      cases hwork
      cases hy
    constructor
    · rintro (⟨level, i, hy⟩ | ⟨work, heq, hy⟩)
      · rcases mem_setVec.mp hy with ⟨_, _, hnil⟩ | ⟨_, hold⟩
        · cases hnil
        · exact .inl ((hmem y).mp ⟨level, i, hold⟩)
      cases heq
      exact .inl ((hmem y).mp ⟨_, _, hy⟩)
    rintro (hy | hy)
    · obtain ⟨level, i, hy⟩ := (hmem y).mpr hy
      by_cases heq : level = 0 ∧ i = w.count % 256
      · obtain ⟨rfl, rfl⟩ := heq
        exact .inr ⟨_, rfl, hy⟩
      exact .inl ⟨level, i, mem_setVec.mpr (.inr ⟨heq, hy⟩)⟩
    exact absurd hy hidle
  have hnear := hinv.near
  refine ⟨by rw [hiter]; exact hnow, ?_, ?_, ?_, hinv.ids, hinv.word, ?_, ?_, hinv.apart, hinv.once,
    hinv.punctual⟩
  · show w.count + 1 ≤ w.now + 1
    omega
  · show w.now < w.count + 1 + 2 ^ 31
    omega
  · intro work heq
    cases heq
    refine ⟨hwheel.nodup 0 _, ?_⟩
    intro x hx
    obtain ⟨hlo, hhi, hi⟩ := hwheel.sites 0 _ x hx
    refine ⟨?_, ?_⟩
    · show x.due + 1 = w.count + 1
      omega
    rintro ⟨level, i, hin⟩
    rcases mem_setVec.mp hin with ⟨_, _, hnil⟩ | ⟨hne, hold⟩
    · cases hnil
    · exact hne (hwheel.unique _ _ _ _ x hold hx)
  · intro y
    rw [hactive]
    exact hinv.known y
  intro y hy
  exact hinv.active y ((hactive y).mp hy)

/-- The work list is begun or left empty: nothing changes for the timers. -/
theorem inv_idle {running : Option (List Timer)} (hold : w.running = none ∨ w.running = some [])
    (hnew : running = none ∨ running = some []) :
    Inv { w with running := running } := by
  have hnone : ∀ {r : Option (List Timer)} {work : List Timer}, (r = none ∨ r = some []) →
      r = some work → work = [] := by
    rintro r work (rfl | rfl) heq
    · cases heq
    cases heq
    rfl
  have hactive : ∀ y, ({ w with running := running } : World).Active y ↔ w.Active y := by
    intro y
    constructor
    · rintro (hin | ⟨work, heq, hy⟩)
      · exact .inl hin
      rw [hnone hnew heq] at hy
      cases hy
    rintro (hin | ⟨work, heq, hy⟩)
    · exact .inl hin
    rw [hnone hold heq] at hy
    cases hy
  refine ⟨hinv.wheel, hinv.behind, hinv.near, ?_, hinv.ids, hinv.word, ?_, ?_, hinv.apart,
    hinv.once, hinv.punctual⟩
  · intro work heq
    rw [hnone hnew heq]
    exact ⟨nodup_nil, by simp⟩
  · intro y
    rw [hactive]
    exact hinv.known y
  intro y hy
  exact hinv.active y ((hactive y).mp hy)

theorem inv_run (hrun : w.running = some (x :: work)) :
    Inv { w with running := some work, log := (x, w.count - 1) :: w.log } := by
  obtain ⟨hnodup, hall⟩ := hinv.work _ hrun
  obtain ⟨hx, hnodup⟩ := nodup_cons.mp hnodup
  obtain ⟨hdue, hxmem⟩ := hall x mem_cons_self
  have hxactive : w.Active x := .inr ⟨_, hrun, mem_cons_self⟩
  have hactive : ∀ y, ({ w with running := some work, log := (x, w.count - 1) :: w.log } :
      World).Active y ↔ w.Active y ∧ y ≠ x := by
    intro y
    constructor
    · rintro (hin | ⟨work', heq, hy⟩)
      · refine ⟨.inl hin, ?_⟩
        rintro rfl
        exact hxmem hin
      cases heq
      refine ⟨.inr ⟨_, hrun, mem_cons_of_mem x hy⟩, ?_⟩
      rintro rfl
      exact hx hy
    rintro ⟨hin | ⟨work', heq, hy⟩, hne⟩
    · exact .inl hin
    rw [hrun] at heq
    cases heq
    exact .inr ⟨work, rfl, (mem_cons.mp hy).resolve_left hne⟩
  refine ⟨hinv.wheel, hinv.behind, hinv.near, ?_, hinv.ids, hinv.word, ?_, ?_, ?_, ?_, ?_⟩
  · intro work' heq
    cases heq
    exact ⟨hnodup, fun y hy => hall y (mem_cons_of_mem x hy)⟩
  · intro y
    rw [hactive]
    refine (hinv.known y).trans ?_
    show _ ↔ (w.Active y ∧ y ≠ x) ∨ y ∈ w.deleted ∨ y ∈ x :: w.ran
    rw [mem_cons]
    by_cases hyx : y = x
    · subst hyx
      exact iff_of_true (.inl hxactive) (.inr (.inr (.inl rfl)))
    simp [hyx]
  · intro y hy
    obtain ⟨hold, hne⟩ := (hactive y).mp hy
    obtain ⟨hdel, hran⟩ := hinv.active y hold
    exact ⟨hdel, fun h => (mem_cons.mp h).elim hne hran⟩
  · intro y hy h
    rcases mem_cons.mp h with rfl | h
    · exact (hinv.active y hxactive).1 hy
    · exact hinv.apart y hy h
  · exact nodup_cons.mpr ⟨(hinv.active x hxactive).2, hinv.once⟩
  intro e he
  rcases mem_cons.mp he with rfl | he
  · show w.count - 1 = x.due
    omega
  exact hinv.punctual e he

theorem inv_next {l : Label} (hstep : w.next l = some w') : Inv w' := by
  cases l with
  | add expires =>
    rw [World.next] at hstep
    split at hstep
    · rename_i hexp
      cases hstep
      exact inv_add hinv hexp
    cases hstep
  | del site x =>
    cases site with
    | some place =>
      rw [World.next] at hstep
      split at hstep
      · rename_i hx
        cases hstep
        exact inv_del_vec hinv hx
      cases hstep
    | none => ?_
    rw [World.next] at hstep
    split at hstep
    · rename_i work hrun
      split at hstep
      · rename_i hx
        cases hstep
        exact inv_del_work hinv hrun hx
      cases hstep
    cases hstep
  | advance n =>
    rw [World.next] at hstep
    split at hstep
    · rename_i hnear
      cases hstep
      have hbehind := hinv.behind
      exact ⟨hinv.wheel, by show w.count ≤ w.now + n + 1; omega, hnear, hinv.work, hinv.ids, hinv.word,
        hinv.known, hinv.active, hinv.apart, hinv.once, hinv.punctual⟩
    cases hstep
  | call =>
    rw [World.next] at hstep
    split at hstep
    · rename_i hidle
      cases hstep
      exact inv_idle hinv (.inl hidle) (.inr rfl)
    cases hstep
  | iterate =>
    rw [World.next] at hstep
    split at hstep
    · rename_i hrun
      split at hstep
      · rename_i htime
        cases hstep
        exact inv_iterate hinv hrun ((time_after_eq_iff hinv).mp htime)
      cases hstep
      exact inv_idle hinv (.inr hrun) (.inl rfl)
    cases hstep
  | run =>
    rw [World.next] at hstep
    split at hstep
    · rename_i hrun
      cases hstep
      exact inv_run hinv hrun
    cases hstep

omit hinv in
theorem reachable_inv (hw : timer_wheel.Reachable w) : Inv w := by
  refine System.invariant ?_ ?_ hw
  · intro w hinit
    exact inv_init hinit
  intro w l w' hinv hstep
  exact inv_next hinv hstep

/-! ## A call of `__run_timers` -/

/-- A timer that has not been deleted was run, or its iteration is to come. -/
theorem Inv.ran_or_to_come (hx : x ∈ w.added) (hdel : x ∉ w.deleted)
    (hran : x ∉ w.ran) : w.count ≤ x.due ∨ x.due + 1 = w.count ∧ w.InWork x := by
  rcases (hinv.known x).mp hx with (⟨level, i, hin⟩ | ⟨work, hrun, hin⟩) | h | h
  · have hsite := hinv.wheel.sites level i x hin
    left
    cases level with
    | zero => exact hsite.1
    | succ k =>
      obtain ⟨_, _, _, _, hlow, _⟩ := hsite
      exact Nat.le_trans hlow (Nat.div_mul_le_self _ _)
  · exact .inr ⟨((hinv.work work hrun).2 x hin).1, work, hrun, hin⟩
  · exact absurd h hdel
  · exact absurd h hran

/-- What the end of the loop means. -/
theorem Inv.finished (hstep : w.next .iterate = some w') (hidle : w'.running = none) :
    w.running = some [] ∧ w.count = w.now + 1 ∧ w' = { w with running := none } := by
  rw [World.next] at hstep
  split at hstep
  · rename_i hrun
    split at hstep
    · cases hstep
      cases hidle
    rename_i htime
    cases hstep
    rw [time_after_eq_iff hinv] at htime
    have hbehind := hinv.behind
    exact ⟨hrun, by omega, rfl⟩
  cases hstep

omit hinv in
/-- The timers of the work list are run one after the other. -/
theorem run_work (hrun : w.running = some work) :
    ∃ ls w', (∀ l ∈ ls, l = .iterate ∨ l = .run) ∧ timer_wheel.Steps w ls w' ∧
      w'.running = some [] ∧ w'.count = w.count ∧ w'.now = w.now := by
  induction work generalizing w with
  | nil => exact ⟨[], w, by simp, .nil w, hrun, rfl, rfl⟩
  | cons x work ih => ?_
  have hstep : w.next .run =
      some { w with running := some work, log := (x, w.count - 1) :: w.log } := by
    rw [World.next, hrun]
  obtain ⟨ls, w', hls, hsteps, hend, hcount, hnow⟩ :=
    @ih { w with running := some work, log := (x, w.count - 1) :: w.log } rfl
  refine ⟨.run :: ls, w', ?_, .cons hstep hsteps, hend, hcount, hnow⟩
  exact forall_mem_cons.mpr ⟨.inr rfl, hls⟩

/-- **`__run_timers` returns**, if no more time passes. -/
theorem run_ends (hrun : w.running = some work) :
    ∃ ls w', (∀ l ∈ ls, l = .iterate ∨ l = .run) ∧ timer_wheel.Steps w ls w' ∧
      w'.running = none := by
  -- The iterations up to `jiffies` are left.
  induction hleft : w.now + 1 - w.count generalizing w work with
  | zero =>
    obtain ⟨ls, w₁, hls, hsteps, hend, hcount, hnow⟩ := run_work hrun
    have hinv₁ : Inv w₁ := hsteps.preserves (fun _ _ _ h hs => inv_next h hs) hinv
    have hstep : w₁.next .iterate = some { w₁ with running := none } := by
      rw [World.next, hend]
      refine if_neg ?_
      rw [time_after_eq_iff hinv₁]
      omega
    refine ⟨ls ++ [.iterate], { w₁ with running := none }, ?_, ?_, rfl⟩
    · intro l hl
      rcases mem_append.mp hl with hl | hl
      · exact hls l hl
      · exact .inl (mem_singleton.mp hl)
    exact hsteps.append (.cons hstep (.nil _))
  | succ left ih => ?_
  obtain ⟨ls, w₁, hls, hsteps, hend, hcount, hnow⟩ := run_work hrun
  have hinv₁ : Inv w₁ := hsteps.preserves (fun _ _ _ h hs => inv_next h hs) hinv
  have hstep : w₁.next .iterate = some w₁.iterate := by
    rw [World.next, hend]
    refine if_pos ?_
    rw [time_after_eq_iff hinv₁]
    omega
  have hinv₂ := inv_next hinv₁ hstep
  have hleft₂ : w₁.iterate.now + 1 - w₁.iterate.count = left := by
    show w₁.now + 1 - (w₁.count + 1) = left
    omega
  obtain ⟨ls', w', hls', hsteps', hidle⟩ := ih hinv₂ rfl hleft₂
  refine ⟨ls ++ .iterate :: ls', w', ?_, hsteps.append (.cons hstep hsteps'), hidle⟩
  intro l hl
  rcases mem_append.mp hl with hl | hl
  · exact hls l hl
  rcases mem_cons.mp hl with rfl | hl
  · exact .inl rfl
  · exact hls' l hl

end

/-! ## Main theorem -/

/-- **Timers are run once, on time.** Each timer that was run was run once and in the
iteration it is due in: the one whose number as a word is `expires`, or, if `expires` was
in the past, the one to come when it was added. One that has been neither run nor
deleted is in the work list of that iteration, or the iteration is to come. A call of
`__run_timers` ends, with all iterations up to `jiffies` done; then all timers due until
`jiffies` have been run or deleted. -/
theorem timers_run_once (hw : timer_wheel.Reachable w) :
    (∀ e ∈ w.log, e.2 = e.1.due) ∧ w.ran.Nodup ∧ (∀ x ∈ w.deleted, x ∉ w.ran) ∧
    (∀ x ∈ w.added,
      (¬x.late → x.due % 2 ^ 32 = x.expires ∧ x.added ≤ x.due ∧ x.due < x.added + 2 ^ 31) ∧
      (x.late → x.due = x.added)) ∧
    (∀ x ∈ w.added, x ∉ w.deleted → x ∉ w.ran →
      w.count ≤ x.due ∨ x.due + 1 = w.count ∧ w.InWork x) ∧
    (∀ w', w.next .iterate = some w' → w'.running = none → w'.count = w'.now + 1 ∧
      ∀ x ∈ w'.added, x ∉ w'.deleted → x.due ≤ w'.now → x ∈ w'.ran) ∧
    (w.running ≠ none → ∃ ls w', (∀ l ∈ ls, l = .iterate ∨ l = .run) ∧
      timer_wheel.Steps w ls w' ∧ w'.running = none) := by
  have hinv := reachable_inv hw
  refine ⟨hinv.punctual, hinv.once, hinv.apart, ?_, ?_, ?_, ?_⟩
  · intro x hx
    exact ⟨due_of_not_late (hinv.word x hx), due_of_late⟩
  · intro x hx hdel hran
    exact hinv.ran_or_to_come hx hdel hran
  · intro w' hstep hidle
    obtain ⟨hrun, hcount, rfl⟩ := hinv.finished hstep hidle
    refine ⟨hcount, ?_⟩
    intro x hx hdel hdue
    by_contra hran
    rcases hinv.ran_or_to_come hx hdel hran with hle | ⟨_, work, hwork, hin⟩
    · change x.due ≤ w.now at hdue
      omega
    rw [hrun] at hwork
    cases hwork
    cases hin
  intro hrun
  obtain ⟨work, hwork⟩ := Option.ne_none_iff_exists'.mp hrun
  exact run_ends hinv hwork

end steps

/-- A timer 6 jiffies ahead, across the end of the 32-bit range, and one with an `expires` in
the past. -/
theorem timers_run_once_twoTimers : ∃ w : World, timer_wheel.Reachable w ∧
    w.log = [(⟨0, 2, 2 ^ 32 - 4⟩, 2 ^ 32 + 2), (⟨1, 2 ^ 32 - 9, 2 ^ 32 - 4⟩, 2 ^ 32 - 4)] ∧
    ∀ e ∈ w.log, e.2 = e.1.due := by
  let init : World :=
    { base := { timer_jiffies := 2 ^ 32 - 4, vec := fun _ _ => [] }
      count := 2 ^ 32 - 4, now := 2 ^ 32 - 4, running := none, added := [], deleted := []
      log := [] }
  let run : List Label := [.add 2, .add (2 ^ 32 - 9), .advance 6, .call, .iterate, .run] ++
    List.replicate 6 .iterate ++ [.run, .iterate]
  have hinit : init.Init := ⟨fun _ _ => rfl, rfl, rfl, rfl, rfl, rfl, rfl⟩
  obtain ⟨w, hreach, hlog⟩ : ∃ w, timer_wheel.Reachable w ∧
      w.log = [(⟨0, 2, 2 ^ 32 - 4⟩, 2 ^ 32 + 2), (⟨1, 2 ^ 32 - 9, 2 ^ 32 - 4⟩, 2 ^ 32 - 4)] :=
    System.exists_of_replay run hinit (by decide +kernel)
  exact ⟨w, hreach, hlog, (timers_run_once hreach).1⟩

end Nubernel.Timers
