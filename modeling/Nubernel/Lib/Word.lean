import Mathlib.Data.Nat.Bitwise

/-! # 32-bit machine words and pages

The target is a 32-bit ARM: `unsigned long`, `size_t` and pointers are
32-bit words, pages have 4096 bytes. Words are natural numbers and the
operators that can wrap are written out with their modulus.
-/

namespace Nubernel

/-- Addition of unsigned words. -/
def add32 (a b : Nat) : Nat := (a + b) % 2 ^ 32

/-- Subtraction of unsigned words. -/
def sub32 (a b : Nat) : Nat := (a + (2 ^ 32 - b % 2 ^ 32)) % 2 ^ 32

/-- The value of an `int` after arithmetic that may have left its range
(the kernel is built with `-fno-strict-overflow`). -/
def toInt32 (x : Int) : Int := (x + 2 ^ 31) % 2 ^ 32 - 2 ^ 31

/-- Addition of `u64`. -/
def add64 (a b : Nat) : Nat := (a + b) % 2 ^ 64

/-- Subtraction of `u64`. -/
def sub64 (a b : Nat) : Nat := (a + (2 ^ 64 - b % 2 ^ 64)) % 2 ^ 64

def PAGE_SIZE : Nat := 4096

/-- `PAGE_ALIGN(addr)`: round up to a page boundary, as a word. -/
def PAGE_ALIGN (addr : Nat) : Nat :=
  add32 addr (PAGE_SIZE - 1) / PAGE_SIZE * PAGE_SIZE

/-- The error codes returned by the modelled functions. -/
inductive Errno where
  | EPERM | EINTR | EAGAIN | ENOMEM | EFAULT | EBUSY | EINVAL | ENOTTY | EBADF
  deriving DecidableEq, Repr

/-! ### Where the operators do not wrap -/

theorem add32_lt (a b : Nat) : add32 a b < 2 ^ 32 := by
  unfold add32; omega

theorem sub32_lt (a b : Nat) : sub32 a b < 2 ^ 32 := by
  unfold sub32; omega

variable {a b : Nat}

theorem add32_eq (h : a + b < 2 ^ 32) : add32 a b = a + b := by
  unfold add32; omega

theorem sub32_eq (ha : a < 2 ^ 32) (h : b ≤ a) : sub32 a b = a - b := by
  unfold sub32; omega

theorem add32_one (h : a < b) (hb : b < 2 ^ 32) : add32 a 1 = a + 1 := add32_eq (by omega)

theorem sub32_one (h : b < a) (ha : a < 2 ^ 32) : sub32 a 1 = a - 1 := sub32_eq ha (by omega)

/-- Subtraction undoes addition modulo the word size. -/
theorem sub32_add32 {c : Nat} (h : a = (b + c) % 2 ^ 32) :
    sub32 a c = b % 2 ^ 32 := by
  unfold sub32; omega

theorem add64_eq (h : a + b < 2 ^ 64) : add64 a b = a + b := by
  unfold add64; omega

theorem sub64_eq (ha : a < 2 ^ 64) (h : b ≤ a) : sub64 a b = a - b := by
  unfold sub64; omega

/-- Clearing the low bits of a word rounds down. -/
theorem and_align_mask {y k : Nat} (hk : k ≤ 32) (hy : y < 2 ^ 32) :
    y &&& (2 ^ 32 - 2 ^ k) = y / 2 ^ k * 2 ^ k := by
  have hmask : 2 ^ 32 - 2 ^ k = (2 ^ (32 - k) - 1) <<< k := by
    rw [Nat.shiftLeft_eq, Nat.sub_mul, Nat.one_mul, ← Nat.pow_add, Nat.sub_add_cancel hk]
  rw [hmask, ← Nat.shiftRight_eq_div_pow, ← Nat.shiftLeft_eq]
  refine Nat.eq_of_testBit_eq fun i => ?_
  rw [Nat.testBit_and, Nat.testBit_shiftLeft, Nat.testBit_shiftLeft, Nat.testBit_shiftRight,
    Nat.testBit_two_pow_sub_one]
  by_cases hi : k ≤ i
  · have hcancel : k + (i - k) = i := by omega
    rw [decide_eq_true hi, Bool.true_and, Bool.true_and, hcancel]
    by_cases hlt : i < 32
    · rw [decide_eq_true (by omega : i - k < 32 - k), Bool.and_true]
    have hbit : y.testBit i = false :=
      Nat.testBit_lt_two_pow (Nat.lt_of_lt_of_le hy (Nat.pow_le_pow_right (by decide) (by omega)))
    rw [hbit, Bool.false_and]
  rw [decide_eq_false hi, Bool.false_and, Bool.false_and, Bool.and_false]

theorem toInt32_eq {x : Int} (h : -2 ^ 31 ≤ x) (h' : x < 2 ^ 31) : toInt32 x = x := by
  unfold toInt32; omega

end Nubernel
