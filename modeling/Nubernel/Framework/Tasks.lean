import Mathlib.Algebra.BigOperators.Group.Finset.Piecewise
import Mathlib.Algebra.Order.BigOperators.Group.Finset

/-! # Tasks and the places they are at

A number of tasks run the same program, each at a place of its own:
`pc : Fin n → Pc`. A step moves one of them. Here is how the number of
tasks in a part of the program changes, and what is true of all tasks or
of some task after a move.
-/

open Finset Function

namespace Tasks

variable {n : Nat} {Pc : Type}

/-- The number of tasks that are in a part of the program. -/
def count (P : Pc → Bool) (pc : Fin n → Pc) : Nat := ∑ t, (P (pc t)).toNat

/-- A move takes a task out of the part it was in and puts it where it goes. -/
theorem count_update (P : Pc → Bool) (pc : Fin n → Pc) (t : Fin n) (q : Pc) :
    count P (update pc t q) + (P (pc t)).toNat = count P pc + (P q).toNat := by
  have hfun : (fun i => (P (update pc t q i)).toNat) =
      update (fun i => (P (pc i)).toNat) t (P q).toNat := by
    funext i
    by_cases h : i = t
    · subst h
      simp
    simp [h]
  unfold count
  rw [hfun, sum_update_of_mem (mem_univ t)]
  rw [← sum_sdiff (subset_univ {t})]
  simp only [sum_singleton]
  omega

variable {P : Pc → Bool} {pc : Fin n → Pc} {t : Fin n} {q : Pc}

/-- There is a task in a part of the program. -/
theorem count_pos_iff :
    0 < count P pc ↔ ∃ t, P (pc t) = true := by
  unfold count
  rw [Nat.pos_iff_ne_zero, ne_eq, sum_eq_zero_iff]
  constructor
  · intro h
    by_contra hnone
    apply h
    intro t _
    rw [Bool.toNat_eq_zero, Bool.eq_false_iff]
    exact fun ht => hnone ⟨t, ht⟩
  rintro ⟨t, ht⟩ h
  have hzero := h t (mem_univ t)
  rw [ht] at hzero
  cases hzero

theorem count_le (P : Pc → Bool) (pc : Fin n → Pc) : count P pc ≤ n := by
  calc ∑ t, (P (pc t)).toNat ≤ ∑ _t : Fin n, 1 := sum_le_sum fun t _ => Bool.toNat_le _
    _ = n := by simp

/-- What is true of all tasks stays so if it is true of the task that moves. -/
theorem forall_update {Q : Pc → Prop} (hq : Q q) (h : ∀ i, Q (pc i))
    (i : Fin n) : Q (update pc t q i) := by
  by_cases hi : i = t
  · subst hi
    rw [update_self]
    exact hq
  rw [update_of_ne hi]
  exact h i

/-- Some task is in a part of the program after a move if the one that has
moved is, or if one was and it is not by leaving that there is none. -/
theorem exists_update (h : ∃ i, P (pc i) = true) (hmove : P (pc t) = true → P q = true) :
    ∃ i, P (update pc t q i) = true := by
  obtain ⟨i, hi⟩ := h
  by_cases hit : i = t
  · subst hit
    exact ⟨i, by rw [update_self]; exact hmove hi⟩
  exact ⟨i, by rw [update_of_ne hit]; exact hi⟩

end Tasks
