import Mathlib.Data.Nat.Digits.Defs

/-! # Digits of an index

A tree that branches `b`-fold at each level finds an index by its digits to
the base `b`: in a subtree of height `h + 1` the digit of weight `b ^ h`
says which child comes next, and below it only the index modulo `b ^ h`
matters.
-/

namespace Digits

/-- The digit of weight `b ^ h`. -/
def digit (b h i : Nat) : Nat := i / b ^ h % b

variable {b h : Nat}

/-- Two indices agree below a level if they have the same digit there and agree
below the next one. -/
theorem mod_pow_succ_eq_iff (hb : 0 < b) (h i j : Nat) :
    i % b ^ (h + 1) = j % b ^ (h + 1) ↔ digit b h i = digit b h j ∧ i % b ^ h = j % b ^ h := by
  have hpos : 0 < b ^ h := Nat.pow_pos hb
  constructor
  · intro heq
    have hmod : i % b ^ h = j % b ^ h := by
      have hdvd : b ^ h ∣ b ^ (h + 1) := Nat.pow_dvd_pow b (Nat.le_succ h)
      rw [← Nat.mod_mod_of_dvd i hdvd, ← Nat.mod_mod_of_dvd j hdvd, heq]
    refine ⟨?_, hmod⟩
    rw [Nat.mod_pow_succ, Nat.mod_pow_succ, hmod] at heq
    exact Nat.eq_of_mul_eq_mul_left hpos (Nat.add_left_cancel heq)
  rintro ⟨hdigit, hmod⟩
  unfold digit at hdigit
  rw [Nat.mod_pow_succ, Nat.mod_pow_succ, hmod, hdigit]

/-- The index with the given digit above the digits of `i`. -/
def put (b h d i : Nat) : Nat := d * b ^ h + i % b ^ h

theorem put_mod (b h d i : Nat) : put b h d i % b ^ h = i % b ^ h := by
  unfold put
  rw [Nat.add_mod, Nat.mul_mod_left, Nat.zero_add, Nat.mod_mod, Nat.mod_mod]

theorem put_div (hb : 0 < b) (h d i : Nat) : put b h d i / b ^ h = d := by
  have hpos : 0 < b ^ h := Nat.pow_pos hb
  unfold put
  rw [Nat.mul_comm, Nat.mul_add_div hpos, Nat.div_eq_of_lt (Nat.mod_lt _ hpos), Nat.add_zero]

theorem digit_put (hb : 0 < b) {d : Nat} (hd : d < b) (i : Nat) :
    digit b h (put b h d i) = d := by
  unfold digit
  rw [put_div hb, Nat.mod_eq_of_lt hd]

/-- Below the top of a tree the first digit of an index that fits into the
subtree at its left edge is 0, and of no other. -/
theorem digit_eq_zero_iff {i : Nat} (hi : i < b ^ (h + 1)) :
    digit b h i = 0 ↔ i < b ^ h := by
  have hpos : 0 < b ^ h := by
    rcases Nat.eq_zero_or_pos (b ^ h) with hzero | hpos
    · rw [Nat.pow_succ, hzero, Nat.zero_mul] at hi
      exact absurd hi (Nat.not_lt_zero i)
    exact hpos
  have hlt : i / b ^ h < b := by
    rw [Nat.div_lt_iff_lt_mul hpos, Nat.mul_comm, ← Nat.pow_succ]
    exact hi
  unfold digit
  rw [Nat.mod_eq_of_lt hlt, Nat.div_eq_zero_iff_lt hpos]

end Digits
