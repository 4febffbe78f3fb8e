import Mathlib.Data.Nat.Bitwise

/-! # Buddy blocks

A buddy allocator cuts a space into blocks of `2 ^ order` units, each
starting at a multiple of its size. `Tiles a bs b` says that the list
`bs` of such blocks, in ascending order, covers `[a, b)` exactly.

By `Tiles.buddy_head` an allocator may read the state of the buddy from its
first unit.
-/

open List Nat

namespace Buddy

/-- A block and what is recorded of it. -/
structure Block (α : Type) where
  index : Nat
  order : Nat
  tag : α
  deriving DecidableEq, Repr

/-- The first unit behind a block. -/
def Block.stop {α : Type} (x : Block α) : Nat := x.index + 2 ^ x.order

/-- The buddy of the block of the given order at `index`. -/
def buddy (index order : Nat) : Nat := index ^^^ (1 <<< order)

inductive Tiles {α : Type} : Nat → List (Block α) → Nat → Prop where
  | nil (a : Nat) : Tiles a [] a
  | cons {a b : Nat} {bs : List (Block α)} (x : Block α) : x.index = a → 2 ^ x.order ∣ a →
      Tiles x.stop bs b → Tiles a (x :: bs) b

/-! ### Buddies -/

theorem xor_one (k : Nat) : (k % 2 = 0 ∧ k ^^^ 1 = k + 1) ∨ (k % 2 = 1 ∧ (k ^^^ 1) + 1 = k) := by
  have h1 : (k ^^^ 1) / 2 = k / 2 := by
    rw [xor_div_two]
    simp
  have h2 : (k ^^^ 1) % 2 = (k + 1) % 2 := xor_mod_two_eq
  omega

variable {index order i : Nat}

/-- A block and its buddy are the two halves of a block of the next order. -/
theorem buddy_cases (h : 2 ^ order ∣ index) :
    (2 ^ (order + 1) ∣ index ∧ buddy index order = index + 2 ^ order) ∨
    (2 ^ (order + 1) ∣ buddy index order ∧ buddy index order + 2 ^ order = index) := by
  obtain ⟨k, rfl⟩ := h
  have hbuddy : buddy (2 ^ order * k) order = 2 ^ order * (k ^^^ 1) := by
    unfold buddy
    rw [mul_comm, ← shiftLeft_eq, ← shiftLeft_xor_distrib, shiftLeft_eq, mul_comm]
  rw [hbuddy, pow_succ]
  rcases xor_one k with ⟨hk, hx⟩ | ⟨hk, hx⟩
  · left
    rw [hx]
    constructor
    · exact mul_dvd_mul_left _ (dvd_of_mod_eq_zero hk)
    · rw [mul_add, mul_one]
  right
  constructor
  · exact mul_dvd_mul_left _ (by omega)
  conv_rhs => rw [← hx]
  rw [mul_add, mul_one]

/-- A lower half ends at an odd multiple of its size, and what ends there is a lower half. -/
theorem dvd_start_iff (h : 2 ^ order ∣ index) :
    2 ^ (order + 1) ∣ index ↔ ¬2 ^ (order + 1) ∣ index + 2 ^ order := by
  obtain ⟨k, rfl⟩ := h
  rw [← Nat.mul_succ, pow_succ,
    Nat.mul_dvd_mul_iff_left (Nat.two_pow_pos _), Nat.mul_dvd_mul_iff_left (Nat.two_pow_pos _)]
  omega

/-- The buddy of a lower half is the upper one. -/
theorem buddy_of_dvd (h : 2 ^ (order + 1) ∣ index) :
    buddy index order = index + 2 ^ order := by
  rcases buddy_cases (Nat.dvd_trans (Nat.pow_dvd_pow 2 (Nat.le_succ order)) h) with
    ⟨_, heq⟩ | ⟨hd, heq⟩
  · exact heq
  -- the two halves do not both start at a multiple of the double size
  have hsum : 2 ^ (order + 1) ∣ buddy index order + 2 ^ order := by
    rw [heq]
    exact h
  have hle := Nat.le_of_dvd (Nat.two_pow_pos order) ((Nat.dvd_add_right hd).mp hsum)
  omega

theorem buddy_dvd (h : 2 ^ order ∣ index) : 2 ^ order ∣ buddy index order := by
  rcases buddy_cases h with ⟨_, heq⟩ | ⟨hd, _⟩
  · rw [heq]
    exact Nat.dvd_add h (Nat.dvd_refl _)
  exact dvd_trans (pow_dvd_pow 2 (le_succ _)) hd

theorem buddy_ne (index order : Nat) : buddy index order ≠ index := by
  intro h
  have hz : index ^^^ (index ^^^ (1 <<< order)) = 0 := by
    show index ^^^ buddy index order = 0
    rw [h, Nat.xor_self]
  rw [← Nat.xor_assoc, Nat.xor_self, Nat.zero_xor, Nat.one_shiftLeft] at hz
  have := Nat.two_pow_pos order
  omega

theorem buddy_buddy (index order : Nat) : buddy (buddy index order) order = index := by
  unfold buddy
  rw [Nat.xor_assoc, Nat.xor_self, Nat.xor_zero]

/-- They lie in the same block of the next order. -/
theorem buddy_div (h : 2 ^ order ∣ index) :
    buddy index order / 2 ^ (order + 1) = index / 2 ^ (order + 1) := by
  have hlt : 2 ^ order < 2 ^ (order + 1) := Nat.pow_lt_pow_right (by omega) (by omega)
  rcases buddy_cases h with ⟨⟨c, hc⟩, heq⟩ | ⟨⟨c, hc⟩, heq⟩
  · rw [heq, hc, Nat.mul_add_div (by omega), Nat.div_eq_of_lt hlt, Nat.mul_div_cancel_left _ (by omega)]
    rfl
  have hindex : index = 2 ^ (order + 1) * c + 2 ^ order := by omega
  rw [hc, Nat.mul_div_cancel_left _ (by omega), hindex, Nat.mul_add_div (by omega),
    Nat.div_eq_of_lt hlt]
  rfl

/-- An interval between multiples of `n` contains all or nothing of what
lies between two successive multiples. -/
theorem mem_of_div_eq {n s t j : Nat} (hn : 0 < n) (hs : n ∣ s) (ht : n ∣ t) (hi : s ≤ i ∧ i < t)
    (hij : i / n = j / n) : s ≤ j ∧ j < t := by
  obtain ⟨k, rfl⟩ := hs
  obtain ⟨m, rfl⟩ := ht
  rw [mul_comm n k, mul_comm n m, ← le_div_iff_mul_le hn, ← div_lt_iff_lt_mul hn] at hi ⊢
  rwa [← hij]

/-! ### Tilings -/

section tiles
variable {α : Type} {a b : Nat} {bs pre post : List (Block α)} {x y : Block α}

/-- A block with a multiple of a size that is no smaller begins there. -/
theorem index_eq (hd : 2 ^ y.order ∣ y.index) (hi : y.index ≤ i ∧ i < y.stop)
    (hdi : 2 ^ order ∣ i) (hle : y.order ≤ order) : y.index = i := by
  obtain ⟨k, hk⟩ := hd
  obtain ⟨m, hm⟩ := dvd_trans (pow_dvd_pow 2 hle) hdi
  unfold Block.stop at hi
  rw [hk, hm] at hi ⊢
  have h1 : k ≤ m := Nat.le_of_mul_le_mul_left hi.1 (Nat.two_pow_pos y.order)
  have h2 : m < k + 1 := Nat.lt_of_mul_lt_mul_left (a := 2 ^ y.order) hi.2
  rw [show k = m by omega]

theorem Tiles.le (h : Tiles a bs b) : a ≤ b := by
  induction h with
  | nil a => exact le_refl a
  | cons x hx _ _ ih =>
    unfold Block.stop at ih
    omega

theorem Tiles.append_iff : Tiles a (pre ++ post) b ↔ ∃ m, Tiles a pre m ∧ Tiles m post b := by
  induction pre generalizing a with
  | nil =>
    constructor
    · intro h
      exact ⟨a, .nil a, h⟩
    intro h
    obtain ⟨m, hpre, hpost⟩ := h
    cases hpre
    exact hpost
  | cons x pre ih => ?_
  constructor
  · intro h
    cases h with
    | cons _ hx hd hrest =>
      obtain ⟨m, hpre, hpost⟩ := ih.mp hrest
      exact ⟨m, .cons x hx hd hpre, hpost⟩
  intro h
  obtain ⟨m, hpre, hpost⟩ := h
  cases hpre with
  | cons _ hx hd hrest => exact .cons x hx hd (ih.mpr ⟨m, hrest, hpost⟩)

theorem Tiles.mem (h : Tiles a bs b) (hx : x ∈ bs) :
    a ≤ x.index ∧ x.stop ≤ b ∧ 2 ^ x.order ∣ x.index := by
  induction h with
  | nil a => cases hx
  | cons y hy hd hrest ih => ?_
  have hle := hrest.le
  have hstop : y.index ≤ y.stop := le_add_right _ _
  rcases mem_cons.mp hx with rfl | hx
  · exact ⟨by omega, hle, hy ▸ hd⟩
  obtain ⟨h1, h2⟩ := ih hx
  exact ⟨by omega, h2⟩

section
variable (h : Tiles a bs b) (hx : x ∈ bs) (hy : y ∈ bs)
include h hx hy

/-- Two blocks of a tiling that share a unit are the same. -/
theorem Tiles.eq_of_mem (hxi : x.index ≤ i ∧ i < x.stop) (hyi : y.index ≤ i ∧ i < y.stop) :
    x = y := by
  induction h with
  | nil a => cases hx
  | cons z hz hd hrest ih => ?_
  rcases mem_cons.mp hx with rfl | hx'
  · rcases mem_cons.mp hy with rfl | hy'
    · rfl
    have := (hrest.mem hy').1
    omega
  rcases mem_cons.mp hy with rfl | hy'
  · have := (hrest.mem hx').1
    omega
  exact ih hx' hy'

theorem Tiles.eq_of_index (hxy : x.index = y.index) : x = y := by
  have hpx := Nat.two_pow_pos x.order
  have hpy := Nat.two_pow_pos y.order
  exact h.eq_of_mem hx hy (i := x.index) ⟨le_refl _, by unfold Block.stop; omega⟩
    ⟨by omega, by unfold Block.stop; omega⟩

theorem Tiles.disjoint (hxy : x ≠ y) :
    x.stop ≤ y.index ∨ y.stop ≤ x.index := by
  have hpx := Nat.two_pow_pos x.order
  have hpy := Nat.two_pow_pos y.order
  by_contra hcon
  apply hxy
  apply h.eq_of_mem hx hy (i := max x.index y.index)
  · unfold Block.stop at hcon ⊢
    omega
  unfold Block.stop at hcon ⊢
  omega

omit h hx hy in
/-- Every unit lies in a block. -/
theorem Tiles.exists_mem (h : Tiles a bs b) (hi : a ≤ i ∧ i < b) :
    ∃ x ∈ bs, x.index ≤ i ∧ i < x.stop := by
  induction h with
  | nil a => omega
  | cons y hy hd hrest ih => ?_
  by_cases hlt : i < y.stop
  · exact ⟨y, by simp, by omega, hlt⟩
  obtain ⟨x, hx, hxi⟩ := ih ⟨by omega, hi.2⟩
  exact ⟨x, by simp [hx], hxi⟩

omit h hx hy in
/-- The buddy of a block, if it is inside, is the start of a block that is
no larger. -/
theorem Tiles.buddy_head (h : Tiles 0 bs b) (hx : x ∈ bs) (hb : buddy x.index x.order < b) :
    ∃ y ∈ bs, y.index = buddy x.index x.order ∧ y.order ≤ x.order := by
  obtain ⟨y, hy, hyi⟩ := h.exists_mem ⟨Nat.zero_le _, hb⟩
  have hdx := (h.mem hx).2.2
  have hdy := (h.mem hy).2.2
  have hdb := buddy_dvd hdx
  -- a larger block around the buddy would also contain the block itself
  have hle : y.order ≤ x.order := by
    by_contra hlt
    have hstart : 2 ^ (x.order + 1) ∣ y.index :=
      dvd_trans (pow_dvd_pow 2 (by omega)) hdy
    have hstop : 2 ^ (x.order + 1) ∣ y.stop :=
      Nat.dvd_add hstart (Nat.pow_dvd_pow 2 (by omega))
    have hin := mem_of_div_eq (Nat.two_pow_pos _) hstart hstop hyi (buddy_div hdx)
    have heq := h.eq_of_mem hx hy ⟨le_refl _, by unfold Block.stop; omega⟩ hin
    rw [heq] at hlt
    exact hlt (le_refl _)
  exact ⟨y, hy, index_eq hdy hyi hdb hle, hle⟩

/-- A block that starts where another one ends follows it in the list. -/
theorem Tiles.adjacent (hxy : x.stop = y.index) :
    ∃ pre post, bs = pre ++ x :: y :: post := by
  induction h with
  | nil a => cases hx
  | cons z hz hd hrest ih => ?_
  have hpx := Nat.two_pow_pos x.order
  rcases mem_cons.mp hy with rfl | hy'
  · -- nothing ends where the first block starts
    rcases mem_cons.mp hx with heq | hx'
    · rw [heq] at hxy hpx
      unfold Block.stop at hxy
      omega
    have h1 := (hrest.mem hx').1
    unfold Block.stop at h1 hxy
    omega
  rcases mem_cons.mp hx with rfl | hx'
  · cases hrest with
    | nil => cases hy'
    | cons w hw hd' hrest' => ?_
    rcases mem_cons.mp hy' with rfl | hy''
    · exact ⟨[], _, rfl⟩
    have h1 := (hrest'.mem hy'').1
    unfold Block.stop at h1 hxy hw
    omega
  obtain ⟨pre, post, heq⟩ := ih hx' hy'
  exact ⟨z :: pre, post, by rw [heq]; rfl⟩

end

theorem Tiles.outside (h : Tiles a (pre ++ x :: post) b) (hy : y ∈ pre ++ post) :
    y.index < x.index ∨ x.stop ≤ y.index := by
  obtain ⟨m, hpre, hpost⟩ := Tiles.append_iff.mp h
  cases hpost with
  | cons _ hx _ hrest =>
    have hpos := Nat.two_pow_pos y.order
    rcases mem_append.mp hy with hy | hy
    · left
      have := (hpre.mem hy).2.1
      unfold Block.stop at this
      omega
    right
    exact (hrest.mem hy).1

/-- Blocks are not empty. -/
theorem Tiles.length_le (h : Tiles a bs b) : a + bs.length ≤ b := by
  induction h with
  | nil a => simp
  | cons x hx hd hrest ih =>
    unfold Block.stop at ih
    rw [length_cons]
    omega

/-- Replacing a block by one of the same place and size. -/
theorem Tiles.retag (h : Tiles a (pre ++ x :: post) b) (tag : α) :
    Tiles a (pre ++ { x with tag := tag } :: post) b := by
  obtain ⟨m, hpre, hpost⟩ := Tiles.append_iff.mp h
  cases hpost with
  | cons _ hx hd hrest => exact Tiles.append_iff.mpr ⟨m, hpre, .cons _ hx hd hrest⟩

theorem Tiles.split (h : Tiles a (pre ++ x :: post) b) (ho : x.order = order + 1) (tag tag' : α) :
    Tiles a (pre ++ ⟨x.index, order, tag⟩ :: ⟨x.index + 2 ^ order, order, tag'⟩ :: post) b := by
  obtain ⟨m, hpre, hpost⟩ := Tiles.append_iff.mp h
  cases hpost with
  | cons _ hx hd hrest =>
    have hd' : 2 ^ order ∣ m := dvd_trans (pow_dvd_pow 2 (by omega)) hd
    refine Tiles.append_iff.mpr ⟨m, hpre, .cons _ hx hd' (.cons _ rfl ?_ ?_)⟩
    · rw [hx]
      exact Nat.dvd_add hd' (Nat.dvd_refl _)
    have hstop : x.stop = x.index + 2 ^ order + 2 ^ order := by
      unfold Block.stop
      rw [ho, pow_succ]
      omega
    rw [hstop] at hrest
    exact hrest

theorem Tiles.merge (h : Tiles a (pre ++ x :: y :: post) b) (ho : y.order = x.order)
    (hd : 2 ^ (x.order + 1) ∣ x.index) (tag : α) :
    Tiles a (pre ++ ⟨x.index, x.order + 1, tag⟩ :: post) b := by
  obtain ⟨m, hpre, hpost⟩ := Tiles.append_iff.mp h
  cases hpost with
  | cons _ hx _ hrest =>
    cases hrest with
    | cons _ hy _ hrest =>
      refine Tiles.append_iff.mpr ⟨m, hpre, .cons _ hx (hx ▸ hd) ?_⟩
      have hstop : y.stop = x.index + 2 ^ (x.order + 1) := by
        unfold Block.stop at hy ⊢
        rw [ho, pow_succ]
        omega
      rw [hstop] at hrest
      exact hrest

end tiles

end Buddy
