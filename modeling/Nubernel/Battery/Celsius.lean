import Mathlib.Data.Nat.Find
import Nubernel.Battery.Charging

/-! # battery: the search for the temperature

`s3c_get_bat_temp` looks for the converted reading in `adc_table`, which is
sorted, by halving; the search stops when it comes to the first or the last
entry.
For some sizes of the table it goes past the second entry.
-/

namespace Nubernel.Battery

/-- The value of an entry. -/
def value (table : List AdcEntry) (j : Nat) : Int := (table.getD j default).adc_value

/-- The search of `celsius_loop` ends at an entry, and all that it reads is
within the table. -/
def StaysInside (table : List AdcEntry) (adc : Int) : Nat → Int → Int → Prop
  | 0, _, _ => False
  | fuel + 1, left_side, right_side =>
    let mid := (left_side + right_side) / 2
    left_side ≤ right_side ∧ mid.toNat < table.length ∧
      (mid = 0 ∨ mid = table.length - 1 ∨ mid.toNat + 1 < table.length ∧
        (value table mid.toNat ≤ adc ∧ value table (mid.toNat + 1) > adc ∨
          if adc - value table mid.toNat > 0 then
            StaysInside table adc fuel (mid + 1) right_side
          else
            StaysInside table adc fuel left_side (mid - 1)))

section search
variable {table : List AdcEntry} {adc : Int}

/-- The last entry whose value is not above the reading, or the first entry if
there is none. -/
structure Sought (table : List AdcEntry) (adc : Int) (k : Nat) : Prop where
  lt : k < table.length
  le : k = 0 ∨ value table k ≤ adc
  above : ∀ j, k < j → j < table.length → adc < value table j

theorem exists_sought (hne : 0 < table.length) : ∃ k, Sought table adc k := by
  refine ⟨Nat.findGreatest (fun j => j = 0 ∨ value table j ≤ adc) (table.length - 1), ?_, ?_, ?_⟩
  · have := Nat.findGreatest_le (P := fun j => j = 0 ∨ value table j ≤ adc) (table.length - 1)
    omega
  · exact Nat.findGreatest_spec (P := fun j => j = 0 ∨ value table j ≤ adc) (Nat.zero_le _) (.inl rfl)
  intro j hlt hj
  have hnot := Nat.findGreatest_is_greatest hlt (by omega)
  omega

/-- A search that always goes to the left comes to the first two entries. -/
def skips_second : Nat → Nat → Bool
  | 0, _ => false
  | fuel + 1, right_side =>
    right_side = 1 || decide (1 < right_side) && skips_second fuel (right_side / 2 - 1)

theorem skips_second_zero (fuel : Nat) : skips_second fuel 0 = false := by
  cases fuel <;> rfl

/-- The entry at which a search between two sides ends, if `k` is sought. -/
def ends_at (fuel : Nat) (left_side right_side : Int) (k : Nat) : Nat :=
  if left_side = 0 ∧ k = 1 ∧ skips_second fuel right_side.toNat then 0 else k

variable (hasc : ∀ i j, i < j → j < table.length → value table i < value table j)
include hasc

theorem Sought.value_le {j k : Nat} (hk : Sought table adc k) (hj : j ≤ k) (hne : j ≠ 0) :
    value table j ≤ adc := by
  have hle := hk.le
  rcases Nat.lt_or_eq_of_le hj with hlt | rfl
  · have := hasc j k hlt hk.lt
    omega
  omega

/-- The entry that is sought is always between the two sides. -/
theorem celsius_loop_spec {k fuel : Nat} {l r : Int} (hk : Sought table adc k) (hl : 0 ≤ l)
    (hlk : l ≤ k) (hkr : k ≤ r) (hr : r ≤ table.length - 1) (hfuel : r - l < fuel) :
    StaysInside table adc fuel l r ∧
      celsius_loop table adc fuel l r =
        (table.getD (ends_at fuel l r k) default).temperature := by
  induction fuel generalizing l r with
  | zero => omega
  | succ fuel ih => ?_
  have hle : l ≤ r := by omega
  unfold StaysInside celsius_loop
  rw [if_pos hle]
  generalize hmid : (l + r) / 2 = mid
  by_cases hend : mid = 0 ∨ mid = (table.length : Int) - 1
  · have hmk : mid.toNat = ends_at (fuel + 1) l r k := by
      simp only [ends_at, skips_second, Bool.or_eq_true, Bool.and_eq_true, decide_eq_true_iff]
      split <;> omega
    refine ⟨⟨hle, by omega, or_assoc.mp (.inl hend)⟩, ?_⟩
    rw [if_pos (or_assoc.mp (.inl hend)), hmk]
  have hnext := hasc mid.toNat (mid.toNat + 1) (Nat.lt_succ_self _) (by omega)
  have hlow := hk.value_le hasc (j := mid.toNat)
  have hlow' := hk.value_le hasc (j := mid.toNat + 1)
  have hhigh := hk.above mid.toNat
  have hhigh' := hk.above (mid.toNat + 1)
  by_cases hhit : value table mid.toNat ≤ adc ∧ value table (mid.toNat + 1) > adc
  · have hmk : mid.toNat = k := by omega
    refine ⟨⟨hle, by omega, .inr (.inr ⟨by omega, .inl hhit⟩)⟩, ?_⟩
    rw [if_pos (.inr (.inr hhit)), hmk, ends_at, if_neg]
    rintro ⟨hzero, hone, hskip⟩
    rw [skips_second, show r.toNat / 2 - 1 = 0 by omega, skips_second_zero, Bool.and_false,
      Bool.or_false, decide_eq_true_iff] at hskip
    omega
  have hmiss : ¬(mid = 0 ∨ mid = (table.length : Int) - 1 ∨
      value table mid.toNat ≤ adc ∧ value table (mid.toNat + 1) > adc) := by omega
  by_cases hright : adc - value table mid.toNat > 0
  · obtain ⟨hin, heq⟩ := @ih (mid + 1) r (by omega) (by omega) hkr hr (by omega)
    rw [show ends_at fuel (mid + 1) r k = ends_at (fuel + 1) l r k from
      (if_neg (by omega)).trans (if_neg (by omega)).symm] at heq
    refine ⟨⟨hle, by omega, .inr (.inr ⟨by omega, .inr ?_⟩)⟩, ?_⟩
    · rw [if_pos hright]
      exact hin
    exact (if_neg hmiss).trans ((if_pos hright).trans heq)
  have hends : ends_at fuel l (mid - 1) k = ends_at (fuel + 1) l r k := by
    by_cases hzero : l = 0
    · rw [ends_at, ends_at, skips_second, decide_eq_false (show r.toNat ≠ 1 by omega),
        decide_eq_true (show 1 < r.toNat by omega), Bool.false_or, Bool.true_and,
        show (mid - 1).toNat = r.toNat / 2 - 1 by omega]
    exact (if_neg fun h => hzero h.1).trans (if_neg fun h => hzero h.1).symm
  obtain ⟨hin, heq⟩ := @ih l (mid - 1) hl hlk (by omega) (by omega) (by omega)
  rw [hends] at heq
  refine ⟨⟨hle, by omega, .inr (.inr ⟨by omega, .inr ?_⟩)⟩, ?_⟩
  · rw [if_neg hright]
    exact hin
  exact (if_neg hmiss).trans ((if_neg hright).trans heq)

end search

theorem Sought.unique {table : List AdcEntry} {adc : Int} {k k' : Nat} (h : Sought table adc k)
    (h' : Sought table adc k') : k = k' := by
  have := h.above k'
  have := h'.above k
  have := h.lt
  have := h'.lt
  have := h.le
  have := h'.le
  omega

end Nubernel.Battery
