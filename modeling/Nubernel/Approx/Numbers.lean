import Mathlib.Algebra.Order.Field.Basic
import Mathlib.Tactic.LinearCombination
import Mathlib.Tactic.Linarith
import Mathlib.Tactic.Ring
import Nubernel.Lib.Word

/-! # Integer approximations (lib/int_sqrt.c, lib/rational.c)

`int_sqrt` finds the digits of a square root to the base two, the highest first.
`rational_best_approximation` goes along the continued fraction of a number.
-/

open Nat

namespace Nubernel.Approx

/-! ## Square roots -/

/-- `while (one > op) one >>= 2;` -/
def first_digit (op one : Nat) : Nat :=
  if one > op then first_digit op (one / 4) else one
termination_by one
decreasing_by omega

/-- `while (one != 0)`: the digits from that of `one` on. -/
def digits (op res one : Nat) : Nat :=
  if one ≠ 0 then
    if op ≥ add32 res one then
      digits (sub32 op (add32 res one)) (add32 res (2 * one % 2 ^ 32) / 2) (one / 4)
    else digits op (res / 2) (one / 4)
  else res
termination_by one
decreasing_by all_goals omega

def int_sqrt (x : Nat) : Nat := digits x 0 (first_digit x (2 ^ 30))

theorem four_pow (k : Nat) : 4 ^ (k + 1) / 4 = 2 ^ k * 2 ^ k := by
  rw [Nat.pow_succ, Nat.mul_div_cancel _ (by decide), ← Nat.mul_pow]

/-- The digits of `r` are found, and those below `2 ^ k` are not yet. -/
theorem digits_spec {x op r k : Nat} (hr : r + 2 ^ k ≤ 2 ^ 16) (hx : x = op + r * r)
    (hlt : x < (r + 2 ^ k) * (r + 2 ^ k)) : digits op (r * 2 ^ k) (4 ^ k / 4) = Nat.sqrt x := by
  induction k generalizing op r with
  | zero =>
    rw [digits, if_neg (by decide), pow_zero, mul_one, eq_sqrt]
    exact ⟨by omega, hlt⟩
  | succ k ih => ?_
  have hpos := Nat.two_pow_pos k
  rw [pow_succ'] at hr hlt
  have hsum : (r + 2 ^ k) * 2 ^ k = r * 2 ^ k + 2 ^ k * 2 ^ k := add_mul _ _ _
  have hsq : (r + 2 ^ k) * (r + 2 ^ k) = r * r + 2 * (r * 2 ^ k) + 2 ^ k * 2 ^ k := by ring
  have hres : r * 2 ^ (k + 1) = 2 * (r * 2 ^ k) := by ring
  have hone : 2 ^ k * 2 ^ k / 4 = 4 ^ k / 4 := by rw [← Nat.mul_pow]
  -- Nothing wraps.
  have hword : (r + 2 * 2 ^ k) * (r + 2 * 2 ^ k) ≤ 2 ^ 16 * 2 ^ 16 := Nat.mul_le_mul hr hr
  have hhalf : (r + 2 ^ k) * 2 ^ k ≤ (2 ^ 16 - 1) * 2 ^ 15 := Nat.mul_le_mul (by omega) (by omega)
  rw [digits, four_pow, hres, add32_eq (by omega), if_pos (mul_pos hpos hpos).ne']
  split
  · have hdouble : add32 (2 * (r * 2 ^ k)) (2 * (2 ^ k * 2 ^ k) % 2 ^ 32) / 2 = (r + 2 ^ k) * 2 ^ k := by
      rw [mod_eq_of_lt (by omega), add32_eq (by omega)]
      omega
    rw [sub32_eq (by omega) ‹_›, hdouble, hone]
    exact ih (by omega) (by omega) (by rwa [Nat.add_assoc, ← Nat.two_mul])
  rw [Nat.mul_div_cancel_left _ (by decide), hone]
  exact ih (by omega) hx (by omega)

/-- The first digit is the highest one that may be set. -/
theorem first_digit_spec {x k : Nat} (hx : x < 4 ^ k) :
    ∃ j ≤ k, first_digit x (4 ^ k / 4) = 4 ^ j / 4 ∧ x < 2 ^ j * 2 ^ j := by
  induction k with
  | zero =>
    rw [first_digit, if_neg (by omega)]
    exact ⟨0, le_refl 0, rfl, hx⟩
  | succ k ih => ?_
  rw [first_digit, four_pow, ← mul_pow]
  split
  · obtain ⟨j, hj, hdigit⟩ := ih ‹_›
    exact ⟨j, by omega, hdigit⟩
  exact ⟨k + 1, le_refl _, by rw [four_pow, ← mul_pow], by rwa [← mul_pow]⟩

/-- `int_sqrt` returns the square root of a word, rounded down. -/
theorem int_sqrt_floor {x : Nat} (hx : x < 2 ^ 32) :
    int_sqrt x * int_sqrt x ≤ x ∧ x < (int_sqrt x + 1) * (int_sqrt x + 1) := by
  obtain ⟨j, hj, heq, hlt⟩ := @first_digit_spec x 16 hx
  have hle : 2 ^ j ≤ 2 ^ 16 := Nat.pow_le_pow_right (by decide) hj
  have hroot := @digits_spec x x 0 j (by omega) rfl (by rwa [zero_add])
  rw [zero_mul, ← heq] at hroot
  exact eq_sqrt.mp hroot

theorem int_sqrt_floor_top : int_sqrt (2 ^ 32 - 1) * int_sqrt (2 ^ 32 - 1) ≤ 2 ^ 32 - 1 :=
  (int_sqrt_floor (by decide)).1

/-! ## Fractions -/

/-- The loop of `rational_best_approximation`. -/
def approximate (max_numerator max_denominator n d n0 d0 n1 d1 : Nat) : Nat × Nat :=
  if n1 > max_numerator ∨ d1 > max_denominator then (n0, d0)
  else if d = 0 then (n1, d1)
  else
    approximate max_numerator max_denominator d (n % d) n1 d1 (add32 n0 (n / d * n1 % 2 ^ 32))
      (add32 d0 (n / d * d1 % 2 ^ 32))
termination_by d
decreasing_by exact mod_lt n (by omega)

/-- `*best_numerator` and `*best_denominator`. -/
def rational_best_approximation
    (given_numerator given_denominator max_numerator max_denominator : Nat) : Nat × Nat :=
  approximate max_numerator max_denominator given_numerator given_denominator 0 1 1 0

structure Within (max_num max_den a b : Nat) : Prop where
  num : a ≤ max_num
  pos : 1 ≤ b
  den : b ≤ max_den

/-- No fraction within the bounds is closer to the given one. -/
def Closest (num den max_num max_den p q : Nat) : Prop :=
  Within max_num max_den p q ∧ ∀ a b, Within max_num max_den a b →
    |(p : ℚ) / q - num / den| ≤ |(a : ℚ) / b - num / den|

/-- The distance of `a / b` from the given fraction, times both denominators. -/
def error (num den a b : Nat) : ℤ := |(a : ℤ) * den - b * num|

/-- No fraction within the bounds has a smaller error. -/
def Least (num den max_num max_den p q : Nat) : Prop :=
  Within max_num max_den p q ∧ ∀ a b, Within max_num max_den a b →
    error num den p q ≤ error num den a b

/-- The variables of the loop after its first round: two neighbours in the continued
fraction, and the numbers that are left of the given ones. -/
structure Neighbours (num den n d n0 d0 n1 d1 : Nat) : Prop where
  num_eq : num = n1 * n + n0 * d
  den_eq : den = d1 * n + d0 * d
  det : (n1 * d0 - n0 * d1 : ℤ) = 1 ∨ (n1 * d0 - n0 * d1 : ℤ) = -1
  lt : d < n
  le : d0 ≤ d1
  two_mul_le : d = 0 → 2 * d0 ≤ d1
  pos : 1 ≤ d1

section neighbours
variable {num den n d n0 d0 n1 d1 : Nat}

/-- A round of the loop, for numerators and denominators. -/
theorem round_eq {a x y : Nat} (h : a = y * n + x * d) :
    a = (x + n / d * y) * d + y * (n % d) := by
  rw [h]
  nth_rewrite 1 [← div_add_mod n d]
  ring

/-- Nothing wraps in it. -/
theorem no_wrap {a x y : Nat} (ha : a < 2 ^ 32) (hd : 0 < d) (h : a = y * n + x * d) :
    add32 x (n / d * y % 2 ^ 32) = x + n / d * y := by
  have hsum := round_eq h
  have hle : x + n / d * y ≤ (x + n / d * y) * d := Nat.le_mul_of_pos_right _ hd
  rw [mod_eq_of_lt (by omega), add32_eq (by omega)]

theorem Neighbours.step (h : Neighbours num den n d n0 d0 n1 d1) (hd : 0 < d) :
    Neighbours num den d (n % d) n1 d1 (n0 + n / d * n1) (d0 + n / d * d1) := by
  have hquot : 1 ≤ n / d := Nat.div_pos (le_of_lt h.lt) hd
  have hmul : d1 ≤ n / d * d1 := Nat.le_mul_of_pos_left d1 hquot
  have hpos := h.pos
  refine ⟨round_eq h.num_eq, round_eq h.den_eq, ?_, mod_lt n hd, by omega, ?_, by omega⟩
  · push_cast
    rcases h.det with hdet | hdet
    · exact .inr (by linear_combination -hdet)
    · exact .inl (by linear_combination -hdet)
  intro hzero
  -- The last number is at least twice what is left.
  have htwo : 2 ≤ n / d := by
    have hdvd := div_add_mod n d
    have hlt := h.lt
    by_contra hlt2
    have hone : n / d = 1 := by omega
    rw [hone, hzero] at hdvd
    omega
  have hmul2 : 2 * d1 ≤ n / d * d1 := Nat.mul_le_mul_right d1 htwo
  omega

/-- Every fraction is put together from the neighbours, and so is its error. -/
theorem Neighbours.coordinates (h : Neighbours num den n d n0 d0 n1 d1) (a b : Nat) :
    ∃ s t : ℤ, (a : ℤ) = s * n1 + t * n0 ∧ (b : ℤ) = s * d1 + t * d0 ∧
      error num den a b = |s * d - t * n| := by
  have hnum : (num : ℤ) = n1 * n + n0 * d := by exact_mod_cast h.num_eq
  have hden : (den : ℤ) = d1 * n + d0 * d := by exact_mod_cast h.den_eq
  unfold error
  rcases h.det with hdet | hdet
  · refine ⟨a * d0 - b * n0, b * n1 - a * d1, ?_, ?_, ?_⟩
    · linear_combination -(a : ℤ) * hdet
    · linear_combination -(b : ℤ) * hdet
    · congr 1
      rw [hnum, hden]
      ring
  · refine ⟨b * n0 - a * d0, a * d1 - b * n1, ?_, ?_, ?_⟩
    · linear_combination (a : ℤ) * hdet
    · linear_combination (b : ℤ) * hdet
    · rw [← abs_neg, hnum, hden]
      congr 1
      ring

theorem Neighbours.errors (h : Neighbours num den n d n0 d0 n1 d1) :
    error num den n0 d0 = n ∧ error num den n1 d1 = d := by
  have hzero : ((n0 : ℤ) * den - d0 * num) = -(n1 * d0 - n0 * d1) * n := by
    rw [h.num_eq, h.den_eq]
    push_cast
    ring
  have hone : ((n1 : ℤ) * den - d1 * num) = (n1 * d0 - n0 * d1) * d := by
    rw [h.num_eq, h.den_eq]
    push_cast
    ring
  unfold error
  rw [hzero, hone]
  rcases h.det with hdet | hdet
  · rw [hdet]
    simp
  · rw [hdet]
    simp

/-- **Outside of the bounds.** If a neighbour is not within the bounds, the one before it
has the least error within them, and the least denominator for it. -/
theorem Neighbours.least (h : Neighbours num den n d n0 d0 n1 d1) {a b : Nat} (hb : 1 ≤ b)
    (hout : a < n1 ∨ b < d1) : (n : ℤ) < error num den a b ∨
      (n : ℤ) = error num den a b ∧ d0 ≤ b := by
  obtain ⟨s, t, ha_eq, hb_eq, herror⟩ := h.coordinates a b
  have hlt : (d : ℤ) < n := by exact_mod_cast h.lt
  have hn : (0 : ℤ) < n := by omega
  have hle : (d0 : ℤ) ≤ d1 := by exact_mod_cast h.le
  have hpos : (1 : ℤ) ≤ d1 := by exact_mod_cast h.pos
  rw [herror]
  rcases lt_or_ge t 0 with ht | ht
  · have ht_den : t * d0 ≤ 0 := mul_nonpos_of_nonpos_of_nonneg ht.le (cast_nonneg d0)
    have hs : 1 ≤ s := by
      by_contra hs
      have hs_den : s * d1 ≤ 0 := mul_nonpos_of_nonpos_of_nonneg (by omega) (by omega)
      omega
    have hd_le : (d : ℤ) ≤ s * d := le_mul_of_one_le_left (cast_nonneg d) hs
    have htn : t * n ≤ -1 * n := mul_le_mul_of_nonneg_right (by omega) hn.le
    rw [abs_of_nonneg (by omega)]
    rcases eq_or_lt_of_le (show (n : ℤ) ≤ s * d - t * n by omega) with heq | hlt'
    · -- The given fraction is the second neighbour, and the one between is as good.
      have htwo := h.two_mul_le (by omega)
      have hone : t = -1 := by
        by_contra hne
        have htn2 : t * n ≤ -2 * n := mul_le_mul_of_nonneg_right (by omega) hn.le
        omega
      have hs_le : (d1 : ℤ) ≤ s * d1 := le_mul_of_one_le_left (by omega) hs
      rw [hone] at hb_eq
      exact .inr ⟨heq, by omega⟩
    · exact .inl hlt'
  -- The second neighbour is not counted, or the fraction is not within the bounds.
  have hs : s ≤ 0 := by
    by_contra hs
    have hs_num : (n1 : ℤ) ≤ s * n1 := le_mul_of_one_le_left (cast_nonneg n1) (by omega)
    have hs_den : (d1 : ℤ) ≤ s * d1 := le_mul_of_one_le_left (cast_nonneg d1) (by omega)
    have ht_num : 0 ≤ t * n0 := mul_nonneg ht (cast_nonneg n0)
    have ht_den : 0 ≤ t * d0 := mul_nonneg ht (cast_nonneg d0)
    omega
  have hs_den : s * d1 ≤ 0 := mul_nonpos_of_nonpos_of_nonneg hs (cast_nonneg d1)
  have hsd : s * d ≤ 0 := mul_nonpos_of_nonpos_of_nonneg hs (cast_nonneg d)
  have ht_pos : 1 ≤ t := by
    by_contra hlt'
    have hzero : t = 0 := by omega
    rw [hzero] at hb_eq
    omega
  have hval : (n : ℤ) ≤ t * n := le_mul_of_one_le_left hn.le ht_pos
  rw [abs_of_nonpos (by omega)]
  rcases eq_or_lt_of_le (show (n : ℤ) ≤ -(s * d - t * n) by omega) with heq | hlt'
  · have hone : t = 1 := by
      by_contra hne
      have htn2 : 2 * n ≤ t * n := mul_le_mul_of_nonneg_right (by omega) hn.le
      omega
    have hs_zero : s = 0 := by
      by_contra hne
      have hs_neg : s * d1 ≤ -1 * d1 := mul_le_mul_of_nonneg_right (by omega) (by omega)
      rw [hone] at hb_eq
      omega
    rw [hone, hs_zero] at hb_eq
    exact .inr ⟨heq, by omega⟩
  · exact .inl hlt'

/-- A neighbour that is the given fraction has no error. -/
theorem Neighbours.exact (h : Neighbours num den n 0 n0 d0 n1 d1) {a b : Nat} (hb : 1 ≤ b) :
    0 < error num den a b ∨ 0 = error num den a b ∧ d1 ≤ b := by
  obtain ⟨s, t, _, hb_eq, herror⟩ := h.coordinates a b
  have hn : (0 : ℤ) < n := by exact_mod_cast h.lt
  rw [herror]
  rcases eq_or_lt_of_le (abs_nonneg (s * (0 : Nat) - t * n)) with heq | hlt
  · have hzero : t = 0 := by
      have hsum : t = 0 ∨ (n : ℤ) = 0 := by simpa using abs_eq_zero.mp heq.symm
      exact hsum.resolve_right hn.ne'
    rw [hzero] at hb_eq
    have hs : 1 ≤ s := by
      by_contra hs
      have hs_den : s * d1 ≤ 0 := mul_nonpos_of_nonpos_of_nonneg (by omega) (cast_nonneg d1)
      omega
    have hle : (d1 : ℤ) ≤ s * d1 := le_mul_of_one_le_left (cast_nonneg d1) hs
    exact .inr ⟨heq, by omega⟩
  · exact .inl hlt

end neighbours

/-- What is stored has the least error within the bounds, and the least denominator for
it. -/
theorem approximate_spec {num den m m' n d n0 d0 n1 d1 : Nat} (hnum : num < 2 ^ 32)
    (hden : den < 2 ^ 32) (h : Neighbours num den n d n0 d0 n1 d1)
    (hin : Within m m' n0 d0 ∨ n1 ≤ m ∧ d1 ≤ m') :
    ∃ p q, approximate m m' n d n0 d0 n1 d1 = (p, q) ∧ Within m m' p q ∧
      ∀ a b, Within m m' a b → error num den p q < error num den a b ∨
        error num den p q = error num den a b ∧ q ≤ b := by
  fun_induction approximate with
  | case1 n d n0 d0 n1 d1 hout =>
    refine ⟨n0, d0, rfl, hin.resolve_right (by omega), ?_⟩
    intro a b hab
    rw [h.errors.1]
    have hnum_le := hab.num
    have hden_le := hab.den
    exact h.least hab.pos (by omega)
  | case2 n n0 d0 n1 d1 hbounds =>
    refine ⟨n1, d1, rfl, ⟨by omega, h.pos, by omega⟩, ?_⟩
    intro a b hab
    rw [h.errors.2]
    exact h.exact hab.pos
  | case3 n d n0 d0 n1 d1 hbounds hd ih =>
    have hpos := pos_of_ne_zero hd
    rw [no_wrap hnum hpos h.num_eq, no_wrap hden hpos h.den_eq] at ih ⊢
    exact ih (h.step hpos) (.inl ⟨by omega, h.pos, by omega⟩)

/-- The distance from the given fraction. -/
theorem distance_eq {num den a b : Nat} (hden : 0 < den) (hb : 0 < b) :
    |(a : ℚ) / b - num / den| = error num den a b / (b * den) := by
  have hden' : (0 : ℚ) < den := Nat.cast_pos.mpr hden
  have hb' : (0 : ℚ) < b := Nat.cast_pos.mpr hb
  unfold error
  rw [div_sub_div _ _ hb'.ne' hden'.ne', abs_div, abs_of_pos (mul_pos hb' hden')]
  push_cast
  rfl

end Nubernel.Approx
