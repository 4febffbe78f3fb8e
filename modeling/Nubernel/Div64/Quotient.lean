import Mathlib.Data.Nat.Log
import Mathlib.Tactic.Ring
import Nubernel.Lib.Word

/-! # 64-bit division (lib/div64.c)

The version for 32-bit machines. `__div64_32` divides by a 32-bit divisor:
it doubles the divisor until it reaches the remainder and then subtracts its
multiples by the powers of two, largest first. `div64_u64` shifts a longer
divisor down to 32 bits, and the dividend with it.
-/

set_option linter.style.nameCheck false

open Nat hiding eq_zero_or_pos

namespace Nubernel.Div64

/-! ## Model -/

/-- `while ((int64_t)b > 0 && b < rem) { b = b+b; d = d+d; }` -/
def double (rem : Nat) : Nat → Nat → Nat → Nat × Nat
  | 0, b, d => (b, d)
  | fuel + 1, b, d =>
    if 0 < b ∧ b < 2 ^ 63 ∧ b < rem then double rem fuel (add64 b b) (add64 d d) else (b, d)

/-- The `do` loop: the quotient and the remainder. -/
def subtract : Nat → Nat → Nat → Nat → Nat → Nat × Nat
  | 0, rem, _, res, _ => (res, rem)
  | fuel + 1, rem, b, res, d =>
    let taken := if b ≤ rem then (sub64 rem b, add64 res d) else (rem, res)
    if d / 2 = 0 then (taken.2, taken.1) else subtract fuel taken.1 (b / 2) taken.2 (d / 2)

/-- What `*n` becomes, and the remainder. -/
def __div64_32 (n base : Nat) : Nat × Nat :=
  let high := n / 2 ^ 32
  -- Reduce the thing a bit first
  let reduced :=
    if base ≤ high then
      (sub64 n (high / base * base % 2 ^ 32 * 2 ^ 32), high / base * 2 ^ 32)
    else (n, 0)
  let grown := double reduced.1 64 base 1
  subtract 64 reduced.1 grown.1 reduced.2 grown.2

/-- `do_div(n, base)` for 32-bit machines. -/
def do_div (n base : Nat) : Nat × Nat :=
  if n / 2 ^ 32 = 0 then (n / base, n % base) else __div64_32 n base

def div_u64 (dividend divisor : Nat) : Nat := (do_div dividend divisor).1

/-- The number of the last bit set, counted from 1. -/
def fls (x : Nat) : Nat := if x = 0 then 0 else log2 x + 1

/-- The quotient and `*remainder`, which is written as a `u32`. -/
def div_s64_rem (dividend divisor : Int) : Int × Int :=
  let abs := if divisor < 0 then toInt32 (-divisor) else divisor
  let (quotient, remainder) :=
    do_div ((if dividend < 0 then -dividend else dividend) % 2 ^ 64).toNat (abs % 2 ^ 32).toNat
  let quotient := if (if dividend < 0 then 0 < divisor else divisor < 0) then sub64 0 quotient
    else quotient
  (((quotient : Int) + 2 ^ 63) % 2 ^ 64 - 2 ^ 63,
    if dividend < 0 then toInt32 (-toInt32 remainder) else toInt32 remainder)

def div64_u64 (dividend divisor : Nat) : Nat :=
  let high := divisor / 2 ^ 32 % 2 ^ 32
  if high ≠ 0 then div_u64 (dividend / 2 ^ fls high) (divisor / 2 ^ fls high % 2 ^ 32)
  else div_u64 dividend (divisor % 2 ^ 32)

/-! ## Division by 32 bits -/

/-- The divisor is doubled until the condition of the loop is false. -/
theorem double_spec {rem base fuel k : Nat} (hbase : 0 < base) (hb : base * 2 ^ k < 2 ^ 64)
    (hfuel : 64 ≤ fuel + k) :
    ∃ m < 64, double rem fuel (base * 2 ^ k) (2 ^ k) = (base * 2 ^ m, 2 ^ m) ∧
      ¬(0 < base * 2 ^ m ∧ base * 2 ^ m < 2 ^ 63 ∧ base * 2 ^ m < rem) := by
  have hk : ∀ {k}, base * 2 ^ k < 2 ^ 64 → k < 64 := fun h =>
    (Nat.pow_lt_pow_iff_right (a := 2) (by decide)).mp
      (Nat.lt_of_le_of_lt (Nat.le_mul_of_pos_left _ hbase) h)
  induction fuel generalizing k with
  | zero => exact absurd (hk hb) (by omega)
  | succ fuel ih => ?_
  have hle : 2 ^ k ≤ base * 2 ^ k := Nat.le_mul_of_pos_left _ hbase
  rw [double]
  by_cases hgo : 0 < base * 2 ^ k ∧ base * 2 ^ k < 2 ^ 63 ∧ base * 2 ^ k < rem
  · have hb' : add64 (base * 2 ^ k) (base * 2 ^ k) = base * 2 ^ (k + 1) := by
      rw [add64_eq (by omega), pow_succ]
      ring
    have hd' : add64 (2 ^ k) (2 ^ k) = 2 ^ (k + 1) := by
      rw [add64_eq (by omega), pow_succ]
      ring
    rw [if_pos hgo, hb', hd']
    refine ih ?_ (by omega)
    rw [pow_succ, ← mul_assoc]
    omega
  rw [if_neg hgo]
  exact ⟨k, hk hb, rfl, hgo⟩

section
variable {n base : Nat}
variable (hn : n < 2 ^ 64) (hbase : 0 < base)
include hn hbase

/-- What is subtracted goes to the quotient. -/
theorem subtract_spec {fuel k rem res : Nat} (hsum : n = res * base + rem)
    (hrem : rem < 2 * (base * 2 ^ k)) (hfuel : k < fuel) :
    subtract fuel rem (base * 2 ^ k) res (2 ^ k) = (n / base, n % base) := by
  induction fuel generalizing k rem res with
  | zero => omega
  | succ fuel ih => ?_
  -- One round leaves less than the multiple of the divisor.
  obtain ⟨rem', res', htaken, hsum', hrem'⟩ : ∃ rem' res',
      (if base * 2 ^ k ≤ rem then (sub64 rem (base * 2 ^ k), add64 res (2 ^ k))
        else (rem, res)) = (rem', res') ∧ n = res' * base + rem' ∧ rem' < base * 2 ^ k := by
    by_cases hle : base * 2 ^ k ≤ rem
    · have hdist : (res + 2 ^ k) * base = res * base + base * 2 ^ k := by ring
      have hres : res + 2 ^ k ≤ (res + 2 ^ k) * base := Nat.le_mul_of_pos_right _ hbase
      refine ⟨rem - base * 2 ^ k, res + 2 ^ k, ?_, by omega, by omega⟩
      rw [if_pos hle, sub64_eq (by omega) hle, add64_eq (by omega)]
    exact ⟨rem, res, if_neg hle, hsum, by omega⟩
  rw [subtract]
  simp only [htaken]
  cases k with
  | zero =>
    rw [if_pos (by decide)]
    rw [pow_zero, mul_one] at hrem'
    have hdiv : n / base = res' := by
      rw [hsum', mul_comm, mul_add_div hbase, div_eq_of_lt hrem', add_zero]
    have hmod : n % base = rem' := by
      rw [hsum', mul_comm, mul_add_mod, mod_eq_of_lt hrem']
    rw [hdiv, hmod]
  | succ k => ?_
  have hd : 2 ^ (k + 1) / 2 = 2 ^ k := by
    rw [Nat.pow_succ, Nat.mul_div_cancel _ (by decide)]
  have hb : base * 2 ^ (k + 1) / 2 = base * 2 ^ k := by
    rw [Nat.pow_succ, ← Nat.mul_assoc, Nat.mul_div_cancel _ (by decide)]
  have hpos := Nat.two_pow_pos k
  rw [hd, hb, if_neg (by omega)]
  refine ih hsum' ?_ (by omega)
  rw [pow_succ, ← mul_assoc] at hrem'
  omega

theorem __div64_32_spec (hb : base < 2 ^ 32) :
    __div64_32 n base = (n / base, n % base) := by
  obtain ⟨rem, res, hred, hsum, hrem⟩ : ∃ rem res,
      (if base ≤ n / 2 ^ 32 then
        (sub64 n (n / 2 ^ 32 / base * base % 2 ^ 32 * 2 ^ 32), n / 2 ^ 32 / base * 2 ^ 32)
      else (n, 0)) = (rem, res) ∧ n = res * base + rem ∧ rem < 2 ^ 64 := by
    by_cases hle : base ≤ n / 2 ^ 32
    · have hmul := div_mul_le_self (n / 2 ^ 32) base
      have hmod : n / 2 ^ 32 / base * base % 2 ^ 32 = n / 2 ^ 32 / base * base :=
        mod_eq_of_lt (by omega)
      have hcomm : n / 2 ^ 32 / base * 2 ^ 32 * base = n / 2 ^ 32 / base * base * 2 ^ 32 := by ring
      refine ⟨n - n / 2 ^ 32 / base * base * 2 ^ 32, n / 2 ^ 32 / base * 2 ^ 32, ?_, ?_, ?_⟩
      · rw [if_pos hle, hmod, sub64_eq hn (by omega)]
      · rw [hcomm]
        omega
      · omega
    exact ⟨n, 0, if_neg hle, by omega, hn⟩
  obtain ⟨m, hm, hgrown, hend⟩ := @double_spec rem base 64 0 hbase (by omega) (by decide)
  have hpos := Nat.mul_pos hbase (Nat.two_pow_pos m)
  rw [pow_zero, mul_one] at hgrown
  unfold __div64_32
  simp only [hred, hgrown]
  exact subtract_spec hn hbase hsum (by omega) hm

theorem do_div_spec (hb : base < 2 ^ 32) : do_div n base = (n / base, n % base) := by
  unfold do_div
  split
  · rfl
  · exact __div64_32_spec hn hbase hb

theorem div_u64_spec (hb : base < 2 ^ 32) : div_u64 n base = n / base :=
  congrArg Prod.fst (do_div_spec hn hbase hb)

end

/-- Division by 32 bits, without and with signs; the signed quotient is cut off towards 0.
The first loop ends within 64 rounds, and the second after `m + 1` more. -/
theorem div64_32_and_signed {n base : Nat} (hn : n < 2 ^ 64) (hbase : 0 < base)
    (hb : base < 2 ^ 32) {dividend divisor : Int} (hdividend : -2 ^ 63 ≤ dividend)
    (hdividend' : dividend < 2 ^ 63) (hdivisor : -2 ^ 31 ≤ divisor) (hdivisor' : divisor < 2 ^ 31)
    (hzero : divisor ≠ 0) (hquot : dividend.tdiv divisor < 2 ^ 63) :
    __div64_32 n base = (n / base, n % base) ∧
      (∀ rem, ∃ m < 64, ∃ b, double rem 64 base 1 = (b, 2 ^ m) ∧
        ¬(0 < b ∧ b < 2 ^ 63 ∧ b < rem)) ∧
      div_s64_rem dividend divisor = (dividend.tdiv divisor, dividend.tmod divisor) := by
  refine ⟨__div64_32_spec hn hbase hb, fun rem => ?_, ?_⟩
  · obtain ⟨m, hm, hgrown, hend⟩ := @double_spec rem base 64 0 hbase (by omega) (by decide)
    rw [pow_zero, mul_one] at hgrown
    exact ⟨m, hm, _, hgrown, hend⟩
  have habs : ((if divisor < 0 then toInt32 (-divisor) else divisor) % 2 ^ 32).toNat =
      divisor.natAbs := by
    unfold toInt32
    split <;> omega
  have hnum : ((if dividend < 0 then -dividend else dividend) % 2 ^ 64).toNat =
      dividend.natAbs := by
    split <;> omega
  have hrem := Nat.mod_lt dividend.natAbs (show 0 < divisor.natAbs by omega)
  have hle := Nat.div_le_self dividend.natAbs divisor.natAbs
  have hle' := Nat.mod_le dividend.natAbs divisor.natAbs
  unfold div_s64_rem
  simp only [habs, hnum, do_div_spec (show dividend.natAbs < 2 ^ 64 by omega)
    (show 0 < divisor.natAbs by omega) (by omega)]
  -- The four combinations of signs.
  obtain ⟨m, rfl | rfl⟩ := dividend.eq_nat_or_neg
  all_goals
    obtain ⟨k, rfl | rfl⟩ := divisor.eq_nat_or_neg
    all_goals
      simp only [Int.natAbs_neg, Int.natAbs_natCast, Int.neg_tdiv, Int.tdiv_neg, Int.neg_tmod,
        Int.tmod_neg, ← Int.ofNat_tdiv, ← Int.ofNat_tmod, Prod.mk.injEq] at *
      generalize m / k = q at *
      generalize m % k = r at *
      unfold sub64 toInt32
      split_ifs <;> omega

theorem div64_32_and_signed_seven :
    __div64_32 (2 ^ 33) 3 = (2 ^ 33 / 3, 2 ^ 33 % 3) ∧ div_s64_rem (-7) 2 = (-3, -1) := by
  have h := @div64_32_and_signed (2 ^ 33) 3 (by decide) (by decide) (by decide) (-7) 2 (by decide)
    (by decide) (by decide) (by decide) (by decide) (by decide)
  exact ⟨h.1, h.2.2⟩

/-! ## Division by 64 bits -/

/-- The bits of a longer divisor that are shifted out. -/
def lost (divisor : Nat) : Nat := divisor % 2 ^ fls (divisor / 2 ^ 32)

/-- The quotient is that by the divisor without the bits shifted out, which is not 0. -/
theorem div64_u64_spec {dividend divisor : Nat} (hn : dividend < 2 ^ 64)
    (hpos : 0 < divisor) (hd : divisor < 2 ^ 64) :
    lost divisor < divisor ∧ div64_u64 dividend divisor = dividend / (divisor - lost divisor) := by
  have hhigh : divisor / 2 ^ 32 % 2 ^ 32 = divisor / 2 ^ 32 := Nat.mod_eq_of_lt (by omega)
  unfold div64_u64 lost
  simp only [hhigh]
  by_cases h0 : divisor / 2 ^ 32 = 0
  · rw [if_neg (by simpa using h0), h0, fls, if_pos rfl, pow_zero, mod_one, Nat.sub_zero,
      mod_eq_of_lt (show divisor < 2 ^ 32 by omega)]
    exact ⟨hpos, div_u64_spec hn hpos (by omega)⟩
  rw [if_pos h0]
  have hspos := Nat.two_pow_pos (fls (divisor / 2 ^ 32))
  -- The shift leaves at most 32 bits, and not 0.
  have hlog : divisor / 2 ^ 32 < 2 ^ fls (divisor / 2 ^ 32) := by
    unfold fls
    rw [if_neg h0, log2_eq_log_two]
    exact lt_pow_succ_log_self (by decide) _
  have hlt : divisor / 2 ^ fls (divisor / 2 ^ 32) < 2 ^ 32 := by
    rw [div_lt_iff_lt_mul hspos]
    omega
  have hle : 2 ^ fls (divisor / 2 ^ 32) ≤ divisor := by
    unfold fls
    rw [if_neg h0, log2_eq_log_two, pow_succ]
    have := pow_log_le_self 2 h0
    omega
  have hquot : 0 < divisor / 2 ^ fls (divisor / 2 ^ 32) := Nat.div_pos hle hspos
  have hsum := div_add_mod divisor (2 ^ fls (divisor / 2 ^ 32))
  refine ⟨(Nat.mod_lt _ hspos).trans_le hle, ?_⟩
  rw [mod_eq_of_lt hlt, div_u64_spec (lt_of_le_of_lt (div_le_self _ _) hn) hquot hlt,
    Nat.div_div_eq_div_mul]
  exact congrArg (dividend / ·) (by omega)

/-- The quotient is exact if and only if the bits shifted out, as often as the quotient says
and once more, fit beside the remainder. -/
theorem div64_u64_exact {dividend divisor : Nat} (hn : dividend < 2 ^ 64)
    (hpos : 0 < divisor) (hd : divisor < 2 ^ 64) :
    div64_u64 dividend divisor = dividend / divisor ↔
      dividend % divisor + (dividend / divisor + 1) * lost divisor < divisor := by
  obtain ⟨hlost, hspec⟩ := div64_u64_spec hn hpos hd
  have hshort : 0 < divisor - lost divisor := by omega
  have hmore : dividend / divisor ≤ dividend / (divisor - lost divisor) :=
    div_le_div_left (Nat.sub_le _ _) hshort
  have hsum := div_add_mod dividend divisor
  have hpart : (dividend / divisor + 1) * (divisor - lost divisor) +
      (dividend / divisor + 1) * lost divisor = divisor * (dividend / divisor) + divisor := by
    rw [← mul_add, Nat.sub_add_cancel (by omega)]
    ring
  calc div64_u64 dividend divisor = dividend / divisor
      ↔ dividend / (divisor - lost divisor) < dividend / divisor + 1 := by
        rw [hspec]
        omega
    _ ↔ dividend < (dividend / divisor + 1) * (divisor - lost divisor) :=
        div_lt_iff_lt_mul hshort
    _ ↔ _ := by omega

/-- A divisor of which bits are lost, and the quotient is right nevertheless. -/
theorem div64_u64_exact_max : div64_u64 (2 ^ 64 - 1) 0xfffffffe00000001 =
    (2 ^ 64 - 1) / 0xfffffffe00000001 :=
  (div64_u64_exact (by decide) (by decide) (by decide)).mpr (by decide +kernel)

/-- **The low bits of the divisor are lost.** `2 ^ 33 + 1` divided by `2 ^ 32 + 1` is 1. -/
theorem div64_u64_inexact :
    div64_u64 (2 ^ 33 + 1) (2 ^ 32 + 1) = 2 ∧ (2 ^ 33 + 1) / (2 ^ 32 + 1) = 1 := by
  decide +kernel

end Nubernel.Div64
