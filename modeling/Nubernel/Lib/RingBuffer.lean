import Mathlib.Data.List.Basic

/-! # Ring buffers

A buffer of `n` cells is used as a window on an unbounded tape: the
cell of position `p` of the tape is `p % n`. `Holds n b p xs` says that
the list `xs` can be read from the cells from position `p` on.

Reads and writes of a ring are done in two parts, up to the end of the
buffer and from its start (`get`, `put`). `Holds.put` and
`Holds.put_frame` are all that is needed of a write: what was written is
there, and what lies on the tape within `n` cells behind it stays.
-/

open List Nat Option

namespace RingBuffer

variable {α : Type}

/-- Copy `xs` into the cells from `dst` on. -/
def memcpy (b : Nat → α) (dst : Nat) (xs : List α) : Nat → α :=
  fun i => if dst ≤ i then (xs[i - dst]?).getD (b i) else b i

/-- The `len` cells from `src` on. -/
def slice (b : Nat → α) (src len : Nat) : List α := (List.range len).map fun i => b (src + i)

/-- Write `xs` at offset `off`, wrapping around once. -/
def put (n : Nat) (b : Nat → α) (off : Nat) (xs : List α) : Nat → α :=
  memcpy (memcpy b off (xs.take (n - off))) 0 (xs.drop (n - off))

@[simp] theorem memcpy_nil (b : Nat → α) (dst : Nat) : memcpy b dst [] = b := by
  funext i
  simp [memcpy]

variable {n p : Nat}

variable {off i : Nat} {xs ys : List α} {b : Nat → α}

theorem put_of_le (h : xs.length ≤ n - off) (b : Nat → α) :
    put n b off xs = memcpy b off xs := by
  simp [put, take_of_length_le h, drop_of_length_le h]

theorem put_append (h : xs.length = n - off) (b : Nat → α)
    (ys : List α) : put n b off (xs ++ ys) = memcpy (memcpy b off xs) 0 ys := by
  simp [put, ← h]

/-- Read `len` cells from offset `off` on, wrapping around once. -/
def get (n : Nat) (b : Nat → α) (off len : Nat) : List α :=
  slice b off (min len (n - off)) ++ slice b 0 (len - min len (n - off))

/-- The cells from tape position `p` on hold `xs`. -/
def Holds (n : Nat) (b : Nat → α) (p : Nat) (xs : List α) : Prop :=
  ∀ i x, xs[i]? = some x → b ((p + i) % n) = x

/-! ### Positions and offsets -/

/-- The offset `y` cells further, when that is less than a turn. -/
theorem add_mod_cases {x y : Nat} (hy : y ≤ n) (hn : 0 < n) :
    (x % n + y < n ∧ (x + y) % n = x % n + y) ∨
    (n ≤ x % n + y ∧ (x + y) % n = x % n + y - n) := by
  have hx := mod_lt x hn
  rw [add_mod]
  rcases Nat.lt_or_eq_of_le hy with hy | rfl
  · rw [Nat.mod_eq_of_lt hy]
    by_cases h : x % n + y < n
    · left
      exact ⟨h, mod_eq_of_lt h⟩
    right
    refine ⟨by omega, ?_⟩
    rw [mod_eq_sub_mod (by omega), mod_eq_of_lt (by omega)]
  right
  simp

/-- The distance of two positions less than a turn apart, from their offsets. -/
theorem distance_eq {d : Nat} (hd : d < n) : ((p + d) % n + n - p % n) % n = d := by
  have hn : 0 < n := by omega
  rcases add_mod_cases (x := p) (y := d) (by omega) hn with ⟨_, h⟩ | ⟨_, h⟩
  · rw [h, show p % n + d + n - p % n = d + n by omega, add_mod_right, mod_eq_of_lt hd]
  · rw [h, show p % n + d - n + n - p % n = d by omega, mod_eq_of_lt hd]

/-- Positions less than a turn apart have different offsets. -/
theorem mod_ne_of_lt {d : Nat} (hd : 0 < d) (hdn : d < n) : (p + d) % n ≠ p % n := by
  have hn : 0 < n := by omega
  rcases add_mod_cases (x := p) (y := d) (by omega) hn with ⟨_, h⟩ | ⟨_, h⟩
  · omega
  · omega

/-! ### What a buffer holds -/

theorem Holds.nil (n : Nat) (b : Nat → α) (p : Nat) : Holds n b p [] := by
  intro i x h
  simp at h

theorem Holds.append_iff :
    Holds n b p (xs ++ ys) ↔ Holds n b p xs ∧ Holds n b (p + xs.length) ys := by
  constructor
  · intro h
    constructor
    · intro i x hx
      apply h
      rw [List.getElem?_append_left (List.getElem?_eq_some_iff.mp hx).1]
      exact hx
    intro i y hy
    rw [Nat.add_assoc]
    apply h
    rw [List.getElem?_append_right (Nat.le_add_right _ _), Nat.add_sub_cancel_left]
    exact hy
  intro h i x hx
  by_cases hi : i < xs.length
  · apply h.1
    rw [← hx, List.getElem?_append_left hi]
  have := h.2 (i - xs.length) x (by rw [← hx, List.getElem?_append_right (by omega)])
  rw [← this]
  congr 2
  omega

/-- A buffer holds a list from a position or from any with the same offset. -/
theorem Holds.mod (h : Holds n b p xs) :
    Holds n b (p % n) xs := by
  intro i x hx
  rw [mod_add_mod]
  exact h i x hx

/-- What a buffer holds depends on its `n` cells only. -/
theorem Holds.congr {b' : Nat → α} (hn : 0 < n) (hb : ∀ i < n, b' i = b i)
    (h : Holds n b p xs) : Holds n b' p xs := by
  intro i x hx
  rw [hb _ (mod_lt _ hn)]
  exact h i x hx

/-! ### Reading -/

theorem slice_getElem? (b : Nat → α) (src len i : Nat) :
    (slice b src len)[i]? = if i < len then some (b (src + i)) else none := by
  unfold slice
  by_cases h : i < len
  · simp [h]
  · simp [h]

@[simp] theorem length_slice (b : Nat → α) (src len : Nat) : (slice b src len).length = len := by
  simp [slice]

theorem slice_append (b : Nat → α) (src n k : Nat) :
    slice b src n ++ slice b (src + n) k = slice b src (n + k) := by
  simp [slice, range_add, Function.comp_def, Nat.add_assoc]

theorem take_slice (b : Nat → α) (src len n : Nat) :
    (slice b src len).take n = slice b src (min n len) := by
  simp [slice, ← map_take, take_range]

theorem length_get (n : Nat) (b : Nat → α) (off len : Nat) : (get n b off len).length = len := by
  simp only [get, slice, length_append, length_map, length_range]
  omega

theorem get_getElem? {len : Nat} (hlen : len ≤ n) (hi : i < len) :
    (get n b (p % n) len)[i]? = some (b ((p + i) % n)) := by
  have hn : 0 < n := by omega
  have hp := mod_lt p hn
  unfold get
  rcases add_mod_cases (x := p) (y := i) (by omega) hn with ⟨h, heq⟩ | ⟨h, heq⟩
  · rw [List.getElem?_append_left (by simp only [slice, length_map, length_range]; omega),
      slice_getElem?, if_pos (by omega), heq]
  rw [List.getElem?_append_right (by simp only [slice, length_map, length_range]; omega),
    slice_getElem?]
  simp only [slice, length_map, length_range]
  rw [if_pos (by omega), heq]
  congr 2
  omega

/-- Reading gives back what the buffer holds. -/
theorem Holds.get (h : Holds n b p xs)
    (hlen : xs.length ≤ n) : RingBuffer.get n b (p % n) xs.length = xs := by
  apply ext_getElem?
  intro i
  by_cases hi : i < xs.length
  · rw [get_getElem? hlen hi]
    have hx := List.getElem?_eq_getElem hi
    rw [hx, h i _ hx]
  rw [List.getElem?_eq_none (by rw [length_get]; omega), List.getElem?_eq_none (by omega)]

/-- What is read is held. -/
theorem Holds.of_get (b : Nat → α) (p : Nat) {len : Nat} (hlen : len ≤ n) :
    Holds n b p (RingBuffer.get n b (p % n) len) := by
  intro i x hx
  have hi := (List.getElem?_eq_some_iff.mp hx).1
  rw [length_get] at hi
  rw [get_getElem? hlen hi, Option.some.injEq] at hx
  exact hx

/-! ### Writing -/

/-- The cells after a write, seen from the position it was made at. -/
theorem put_apply (hlen : xs.length ≤ n)
    (hi : i < n) : put n b (p % n) xs ((p + i) % n) = (xs[i]?).getD (b ((p + i) % n)) := by
  have hn : 0 < n := by omega
  have hp := mod_lt p hn
  unfold put memcpy
  rcases add_mod_cases (x := p) (y := i) (by omega) hn with ⟨h, heq⟩ | ⟨h, heq⟩
  · have h1 : (xs.drop (n - p % n))[p % n + i]? = none := by
      apply List.getElem?_eq_none
      simp only [length_drop]
      omega
    rw [heq]
    simp only [Nat.zero_le, if_true, Nat.sub_zero, h1, getD_none]
    rw [if_pos (by omega), Nat.add_sub_cancel_left, List.getElem?_take, if_pos (by omega)]
  simp only [Nat.zero_le, if_true, Nat.sub_zero, List.getElem?_drop]
  rw [if_neg (by omega)]
  congr 2
  omega

/-- A cell that a write changes is one of those it is made to. -/
theorem exists_of_put_ne {j : Nat} (hlen : xs.length ≤ n) (hj : j < n)
    (hne : put n b (p % n) xs j ≠ b j) :
    ∃ i < xs.length, j = (p + i) % n := by
  -- The distance of the cell from the place written.
  let i := (j + n - p % n) % n
  have hp := mod_lt p (zero_lt_of_lt hj)
  have hcell : (p + i) % n = j := by
    rw [add_mod_mod, ← mod_add_mod, add_sub_of_le (by omega), add_mod_right, mod_eq_of_lt hj]
  refine ⟨i, ?_, hcell.symm⟩
  by_contra hi
  apply hne
  have happly := put_apply (b := b) (p := p) (i := i) hlen (mod_lt _ (by omega))
  rw [List.getElem?_eq_none (by omega), getD_none, hcell] at happly
  exact happly

/-- What was written is there. -/
theorem Holds.put (b : Nat → α) (p : Nat) (hlen : xs.length ≤ n) :
    Holds n (put n b (p % n) xs) p xs := by
  intro i x hx
  have hi := (List.getElem?_eq_some_iff.mp hx).1
  rw [put_apply hlen (by omega), hx, getD_some]

/-- What lies on the tape before the place written, and less than a turn
away from its end, stays. -/
theorem Holds.put_frame {q : Nat} (h : Holds n b q ys) (hq : q + ys.length ≤ p)
    (hp : p + xs.length ≤ q + n) :
    Holds n (RingBuffer.put n b (p % n) xs) q ys := by
  intro i y hy
  have hi := (List.getElem?_eq_some_iff.mp hy).1
  have hcell : (q + i) % n = (p + (q + i + n - p)) % n := by
    rw [← add_mod_right (q + i) n]
    congr 1
    omega
  rw [hcell, put_apply (by omega) (by omega), List.getElem?_eq_none (by omega), getD_none, ← hcell]
  exact h i y hy

end RingBuffer
