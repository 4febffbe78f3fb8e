import Mathlib.Data.List.Basic

/-! # Searching bitmaps

A bitmap is a function from bit numbers.

* `findNext` — the first bit from an offset on that has a property, or the size
  of the map.
* `Clear` — a run of bits that are all clear, and `fill`, which sets a run of bits
  to a value.
-/

open Function

namespace Bitmap

/-! ### The first bit -/

/-- The first of the `n` bits from `i` on with the property, or the bit after them. -/
def findFrom (p : Nat → Bool) : Nat → Nat → Nat
  | 0, i => i
  | n + 1, i => if p i then i else findFrom p n (i + 1)

/-- The first bit from `offset` on with the property, or `size`. -/
def findNext (p : Nat → Bool) (size offset : Nat) : Nat :=
  if offset ≥ size then size else findFrom p (size - offset) offset

/-- What a search from `i` finds: the place `j` is the first one with the property, or
the end of the range. -/
structure First (p : Nat → Bool) (i size j : Nat) : Prop where
  lower : i ≤ j
  upper : j ≤ size
  before : ∀ k, i ≤ k → k < j → p k = false
  found : j < size → p j = true

section first
variable {p : Nat → Bool} {n i size offset : Nat}

theorem findFrom_first : First p i (i + n) (findFrom p n i) := by
  induction n generalizing i with
  | zero =>
    rw [findFrom]
    exact ⟨Nat.le_refl i, Nat.le_refl i, by omega, by omega⟩
  | succ n ih => ?_
  rw [findFrom]
  by_cases hp : p i = true
  · rw [if_pos hp]
    exact ⟨Nat.le_refl i, by omega, by omega, fun _ => hp⟩
  rw [if_neg hp]
  have hrest := @ih (i + 1)
  rw [show i + 1 + n = i + (n + 1) by omega] at hrest
  refine ⟨by have := hrest.lower; omega, hrest.upper, ?_, hrest.found⟩
  intro k hik hk
  by_cases heq : k = i
  · rw [heq]
    exact Bool.eq_false_iff.mpr hp
  exact hrest.before k (by omega) hk

theorem findNext_first (h : offset ≤ size) : First p offset size (findNext p size offset) := by
  unfold findNext
  by_cases hge : offset ≥ size
  · rw [if_pos hge]
    exact ⟨h, Nat.le_refl size, by omega, by omega⟩
  rw [if_neg hge]
  have hfirst := @findFrom_first p (size - offset) offset
  rw [show offset + (size - offset) = size by omega] at hfirst
  exact hfirst

/-- A place with the property in the range is not passed over. -/
theorem First.le_of_mem {j k : Nat} (hf : First p i size j) (hik : i ≤ k) (hk : p k = true) :
    j ≤ k := by
  by_contra hlt
  rw [hf.before k hik (by omega)] at hk
  cases hk

end first

/-! ### Runs of bits -/

/-- The `n` bits from `a` on are clear. -/
def Clear (p : Nat → Bool) (a n : Nat) : Prop := ∀ k, a ≤ k → k < a + n → p k = false

/-- The `n` bits from `a` on are set to `v`. -/
def fill (p : Nat → Bool) (a n : Nat) (v : Bool) : Nat → Bool := fun k =>
  if a ≤ k ∧ k < a + n then v else p k

variable {p : Nat → Bool} {n : Nat}

/-- A search for a bit in a run: the run is clear, or clear runs are behind the bit. -/
theorem First.clear_run {index i : Nat} (hi : First p index (index + n) i) :
    if i < index + n then ∀ a, index ≤ a → Clear p a n → i + 1 ≤ a else Clear p index n := by
  split
  · rename_i hlt
    intro a ha hclear
    have hset := hi.found hlt
    by_contra hge
    rw [hclear i (by omega) (by omega)] at hset
    cases hset
  intro k hk hlt
  exact hi.before k hk (by omega)

/-! ### Counting bits -/

/-- The number of clear bits below `n`. -/
def zeros (p : Nat → Bool) (n : Nat) : Nat := (List.range n).countP fun k => !p k

theorem zeros_succ (p : Nat → Bool) (n : Nat) :
    zeros p (n + 1) = zeros p n + if p n then 0 else 1 := by
  unfold zeros
  rw [List.range_succ, List.countP_append, List.countP_singleton]
  cases p n <;> rfl

theorem zeros_congr {q : Nat → Bool} (h : ∀ k, k < n → p k = q k) :
    zeros p n = zeros q n := by
  induction n with
  | zero => rfl
  | succ n ih => rw [zeros_succ, zeros_succ, ih fun k hk => h k (by omega), h n (by omega)]

theorem zeros_set {k : Nat} (hk : k < n) (hp : p k = false) :
    zeros (update p k true) n + 1 = zeros p n := by
  induction n with
  | zero => omega
  | succ n ih => ?_
  rw [zeros_succ, zeros_succ]
  by_cases heq : k = n
  · subst heq
    rw [zeros_congr fun i hi => update_of_ne (Nat.ne_of_lt hi) true p, update_self, hp]
    rfl
  rw [update_of_ne (Ne.symm heq), ← ih (by omega)]
  omega

end Bitmap
