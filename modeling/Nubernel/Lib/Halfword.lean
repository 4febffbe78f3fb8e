import Mathlib.Tactic.IntervalCases
import Nubernel.Lib.RingBuffer

/-! # Byte memories with 16-bit access

A memory is a function from addresses to bytes. `load16` and `store16`
access two bytes at a time, the lower one first. A byte is stored through
16-bit accesses by merging it into the halfword that it is part of.
-/

namespace Halfword

/-- A memory of bytes. -/
abbrev Mem := Nat → BitVec 8

/-- The byte at the lower address. -/
def low (w : BitVec 16) : BitVec 8 := w.extractLsb' 0 8

/-- The byte at the higher address. -/
def high (w : BitVec 16) : BitVec 8 := w.extractLsb' 8 8

/-- The halfword of two bytes. -/
def join (lo hi : BitVec 8) : BitVec 16 := lo.setWidth 16 ||| (hi.setWidth 16 <<< 8)

@[simp] theorem low_join (lo hi : BitVec 8) : low (join lo hi) = lo := by
  ext i hi'
  interval_cases i <;> simp [low, join]

@[simp] theorem high_join (lo hi : BitVec 8) : high (join lo hi) = hi := by
  ext i hi'
  interval_cases i <;> simp [high, join]

def load16 (m : Mem) (a : Nat) : BitVec 16 := join (m a) (m (a + 1))

def store16 (m : Mem) (a : Nat) (w : BitVec 16) : Mem := fun i =>
  if i = a then low w else if i = a + 1 then high w else m i

@[simp] theorem low_load16 (m : Mem) (a : Nat) : low (load16 m a) = m a :=
  low_join _ _

@[simp] theorem high_load16 (m : Mem) (a : Nat) : high (load16 m a) = m (a + 1) :=
  high_join _ _

theorem store16_apply (m : Mem) (a : Nat) (w : BitVec 16) (i : Nat) :
    store16 m a w i = if i = a then low w else if i = a + 1 then high w else m i := rfl

@[simp] theorem join_low_high (w : BitVec 16) : join (low w) (high w) = w := by
  ext i hi
  interval_cases i <;> simp [low, high, join]

@[simp] theorem load16_store16 (m : Mem) (a : Nat) (w : BitVec 16) :
    load16 (store16 m a w) a = w := by
  simp [load16, store16]

/-- A load is not affected by what happens to other bytes. -/
theorem load16_congr {m m' : Mem} {a : Nat} (h : m' a = m a) (h' : m' (a + 1) = m (a + 1)) :
    load16 m' a = load16 m a := by
  unfold load16
  rw [h, h']

theorem store16_of_ne {m : Mem} {a i : Nat} (w : BitVec 16) (h : i ≠ a) (h' : i ≠ a + 1) :
    store16 m a w i = m i := by
  rw [store16_apply, if_neg h, if_neg h']

/-! ### Merging a byte into a halfword -/

section merge
variable (w v : BitVec 16)

@[simp] theorem low_merge_low : low ((w &&& 0xFF00#16) ||| (v &&& 0x00FF#16)) = low v := by
  ext i hi
  interval_cases i <;> simp [low]

@[simp] theorem high_merge_low : high ((w &&& 0xFF00#16) ||| (v &&& 0x00FF#16)) = high w := by
  ext i hi
  interval_cases i <;> simp [high]

@[simp] theorem low_merge_high : low ((w &&& 0x00FF#16) ||| (v &&& 0xFF00#16)) = low w := by
  ext i hi
  interval_cases i <;> simp [low]

@[simp] theorem high_merge_high : high ((w &&& 0x00FF#16) ||| (v &&& 0xFF00#16)) = high v := by
  ext i hi
  interval_cases i <;> simp [high]

@[simp] theorem low_shiftRight : low (v >>> 8) = high v := by
  ext i hi
  interval_cases i <;> simp [low, high]

@[simp] theorem high_shiftLeft : high (v <<< 8) = low v := by
  ext i hi
  interval_cases i <;> simp [low, high]

end merge

/-! ### Copies -/

open RingBuffer

theorem memcpy_slice_apply (d s : Mem) (dest src n i : Nat) :
    memcpy d dest (slice s src n) i =
      if dest ≤ i ∧ i < dest + n then s (src + (i - dest)) else d i := by
  unfold memcpy
  rw [slice_getElem?]
  by_cases h : dest ≤ i
  · by_cases h' : i < dest + n
    · rw [if_pos h, if_pos (by omega), if_pos ⟨h, h'⟩, Option.getD_some]
    · rw [if_pos h, if_neg (by omega), if_neg (fun hand => h' hand.2), Option.getD_none]
  rw [if_neg h, if_neg (fun hand => h hand.1)]

end Halfword
