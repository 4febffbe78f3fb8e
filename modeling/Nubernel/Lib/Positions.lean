import Mathlib.Data.List.Infix
import Mathlib.Data.List.Nodup

/-! # Binary trees by positions

A binary tree given by what is at each position. A position is the way from
the node up to the root, so that `false :: π` and `true :: π` are the left and
the right child of `π`.
-/

open List Option

namespace Positions

abbrev Pos := List Bool

variable {ν : Type}

/-- A tree goes on below its nodes only. -/
def Closed (lay : Pos → Option ν) : Prop := ∀ b π, lay (b :: π) ≠ none → lay π ≠ none

/-! ### Order -/

/-- Each node is related to its children. -/
def Ordered (R : ν → ν → Prop) (lay : Pos → Option ν) : Prop :=
  ∀ b π p q, lay π = some p → lay (b :: π) = some q → R p q

variable {π σ : Pos} {key : Nat → Bool} {R : ν → ν → Prop}

theorem Ordered.below {lay : Pos → Option ν} (hord : Ordered R lay)
    (htrans : ∀ a b c, R a b → R b c → R a c) (hclosed : Closed lay) {p q : ν} (hp : lay π = some p)
    (hq : lay σ = some q) (hbelow : π <:+ σ) (hne : π ≠ σ) : R p q := by
  induction σ generalizing q with
  | nil => exact absurd (suffix_nil.mp hbelow) hne
  | cons b σ ih => ?_
  have hbelow' := (suffix_cons_iff.mp hbelow).resolve_left hne
  obtain ⟨m, hm⟩ := ne_none_iff_exists'.mp (hclosed b σ (by rw [hq]; exact some_ne_none q))
  have hmq := hord b σ m q hm hq
  by_cases heq : π = σ
  · subst heq
    rw [hp, Option.some.injEq] at hm
    rw [hm]
    exact hmq
  exact htrans p m q (ih hm hbelow' heq) hmq

/-! ### Keys -/

/-- The way down to the position is that of the key. -/
def Follows (key : Nat → Bool) : Pos → Prop
  | [] => True
  | b :: π => b = key π.length ∧ Follows key π

theorem Follows.of_suffix (hσ : Follows key σ) (h : π <:+ σ) :
    Follows key π := by
  induction σ with
  | nil =>
    rw [suffix_nil.mp h]
    trivial
  | cons b σ ih =>
    rcases suffix_cons_iff.mp h with rfl | h
    · exact hσ
    · exact ih hσ.2 h

/-- Above a position that the key leads to, the key leads towards it. -/
theorem Follows.toward (hσ : Follows key σ) (h : π <:+ σ)
    (hne : π ≠ σ) : key π.length :: π <:+ σ := by
  induction σ with
  | nil => exact absurd (suffix_nil.mp h) hne
  | cons b σ ih => ?_
  have h := (suffix_cons_iff.mp h).resolve_left hne
  by_cases heq : π = σ
  · subst heq
    rw [hσ.1]
  exact (ih hσ.2 h heq).trans (suffix_cons b σ)

/-- A key leads to one position at each level. -/
theorem Follows.unique (hπ : Follows key π) (hσ : Follows key σ)
    (hlen : π.length = σ.length) : π = σ := by
  induction π generalizing σ with
  | nil => exact (length_eq_zero_iff.mp hlen.symm).symm
  | cons b π ih => ?_
  cases σ with
  | nil => cases hlen
  | cons c σ =>
    have hlen' : π.length = σ.length := Nat.succ.inj hlen
    rw [ih hπ.2 hσ.2 hlen', hπ.1, hσ.1, hlen']

theorem Follows.suffix (hπ : Follows key π) (hσ : Follows key σ)
    (hle : π.length ≤ σ.length) : π <:+ σ := by
  induction σ with
  | nil =>
    rw [hπ.unique hσ (Nat.le_zero.mp hle)]
  | cons b σ ih =>
    by_cases hlen : π.length ≤ σ.length
    · exact (ih hσ.2 hlen).trans (suffix_cons b σ)
    · rw [hπ.unique hσ (by rw [length_cons] at hle ⊢; omega)]

/-- Two keys that lead to one position agree on the way. -/
theorem Follows.agree {key' : Nat → Bool} (h : Follows key π) (h' : Follows key' π)
    {n : Nat} (hn : n < π.length) : key n = key' n := by
  induction π with
  | nil => exact absurd hn (Nat.not_lt_zero n)
  | cons b π ih => ?_
  by_cases hlast : n = π.length
  · rw [hlast, ← h.1, ← h'.1]
  rw [length_cons] at hn
  exact ih h.2 h'.2 (by omega)

/-! ### The walk through a tree -/

section walk
variable (lay : Pos → Option ν)

/-- The positions of the tree at `π` and below, `d` levels deep. -/
def preorder : Nat → Pos → List Pos
  | 0, _ => []
  | d + 1, π =>
    if (lay π).isSome then π :: (preorder d (false :: π) ++ preorder d (true :: π)) else []

/-- What comes after the tree at `π`, in a tree of `D` levels. -/
def rest (D : Nat) : Pos → List Pos
  | [] => []
  | true :: π => rest D π
  | false :: π => preorder lay (D - (π.length + 1)) (true :: π) ++ rest D π

variable {lay}

variable {d : Nat} {π σ : Pos}

theorem preorder_none (h : lay π = none) : preorder lay d π = [] := by
  cases d with
  | zero => rfl
  | succ d =>
    rw [preorder, h]
    rfl

theorem preorder_some {p : ν} (h : lay π = some p) :
    preorder lay (d + 1) π = π :: (preorder lay d (false :: π) ++ preorder lay d (true :: π)) := by
  rw [preorder, h]
  rfl

/-- What is in the walk is at or below `π`, and in the tree. -/
theorem of_mem_preorder (h : σ ∈ preorder lay d π) :
    π <:+ σ ∧ lay σ ≠ none := by
  induction d generalizing π with
  | zero => cases h
  | succ d ih => ?_
  cases hp : lay π with
  | none =>
    rw [preorder_none hp] at h
    cases h
  | some p => ?_
  rw [preorder_some hp, mem_cons, mem_append] at h
  rcases h with rfl | h | h
  · refine ⟨suffix_rfl, ?_⟩
    rw [hp]
    exact some_ne_none p
  · exact ⟨(suffix_cons false π).trans (ih h).1, (ih h).2⟩
  · exact ⟨(suffix_cons true π).trans (ih h).1, (ih h).2⟩

/-- A position below `π` is at or below one of the children. -/
theorem suffix_cases (h : π <:+ σ) : σ = π ∨ ∃ b, b :: π <:+ σ := by
  induction σ with
  | nil => exact .inl (suffix_nil.mp h).symm
  | cons b σ ih => ?_
  rcases suffix_cons_iff.mp h with rfl | h
  · exact .inl rfl
  right
  rcases ih h with rfl | ⟨c, hc⟩
  · exact ⟨b, suffix_rfl⟩
  · exact ⟨c, hc.trans (suffix_cons b σ)⟩

theorem Closed.of_suffix (hclosed : Closed lay) (h : π <:+ σ) (hσ : lay σ ≠ none) :
    lay π ≠ none := by
  induction σ with
  | nil =>
    rw [suffix_nil.mp h]
    exact hσ
  | cons b σ ih =>
    rcases suffix_cons_iff.mp h with rfl | h
    · exact hσ
    · exact ih h (hclosed b σ hσ)

/-- **The walk visits the whole tree** if it goes deep enough. -/
theorem mem_preorder (hclosed : Closed lay) (h : π <:+ σ)
    (hσ : lay σ ≠ none) (hd : σ.length < π.length + d) : σ ∈ preorder lay d π := by
  induction d generalizing π with
  | zero =>
    have hle := h.length_le
    omega
  | succ d ih => ?_
  obtain ⟨p, hp⟩ := ne_none_iff_exists'.mp (hclosed.of_suffix h hσ)
  rw [preorder_some hp, mem_cons, mem_append]
  rcases suffix_cases h with rfl | ⟨b, hb⟩
  · exact .inl rfl
  right
  have hmem := ih hb (by rw [length_cons]; omega)
  cases b with
  | false => exact .inl hmem
  | true => exact .inr hmem

/-- Nothing is below two children. -/
theorem children_apart (h : false :: π <:+ σ) (h' : true :: π <:+ σ) : False := by
  have heq := (suffix_of_suffix_length_le h h' (Nat.le_refl _)).eq_of_length rfl
  cases heq

/-- **The walk visits nothing twice.** -/
theorem nodup_preorder (d : Nat) (π : Pos) : (preorder lay d π).Nodup := by
  induction d generalizing π with
  | zero => exact nodup_nil
  | succ d ih => ?_
  cases hp : lay π with
  | none =>
    rw [preorder_none hp]
    exact nodup_nil
  | some p => ?_
  rw [preorder_some hp, nodup_cons, mem_append]
  refine ⟨?_, nodup_append'.mpr ⟨ih _, ih _, ?_⟩⟩
  · rintro (h | h)
    all_goals
      have hle := (of_mem_preorder h).1.length_le
      rw [length_cons] at hle
      omega
  intro σ h h'
  exact children_apart (of_mem_preorder h).1 (of_mem_preorder h').1

/-- What comes after a position is below the right child of a position above it. -/
theorem of_mem_rest {D : Nat} (h : σ ∈ rest lay D π) :
    ∃ ρ, false :: ρ <:+ π ∧ true :: ρ <:+ σ ∧ lay σ ≠ none := by
  induction π with
  | nil => cases h
  | cons b π ih => ?_
  cases b with
  | true =>
    obtain ⟨ρ, hρ, hσ⟩ := ih h
    exact ⟨ρ, hρ.trans (suffix_cons true π), hσ⟩
  | false => ?_
  rw [rest, mem_append] at h
  rcases h with h | h
  · exact ⟨π, suffix_rfl, of_mem_preorder h⟩
  obtain ⟨ρ, hρ, hσ⟩ := ih h
  exact ⟨ρ, hρ.trans (suffix_cons false π), hσ⟩

end walk

/-! ### A node on top -/

/-- `p` on top, and the tree as its left child. -/
def under (p : ν) (lay : Pos → Option ν) : Pos → Option ν := fun σ =>
  if σ = [] then some p else if σ.getLast? = some false then lay σ.dropLast else none

section under
variable {p : ν} {lay : Pos → Option ν}

theorem under_nil : under p lay [] = some p := if_pos rfl

theorem under_append_false (σ : Pos) : under p lay (σ ++ [false]) = lay σ := by
  unfold under
  rw [if_neg (by simp), if_pos (by simp), dropLast_concat]

theorem under_append_true (σ : Pos) : under p lay (σ ++ [true]) = none := by
  unfold under
  rw [if_neg (by simp), if_neg (by simp)]

/-- What is at a position. -/
theorem under_cases {q : ν} (h : under p lay σ = some q) :
    σ = [] ∧ q = p ∨ ∃ τ, σ = τ ++ [false] ∧ lay τ = some q := by
  rcases eq_nil_or_concat σ with rfl | ⟨τ, b, rfl⟩
  · rw [under_nil, Option.some.injEq] at h
    exact .inl ⟨rfl, h.symm⟩
  cases b with
  | false =>
    rw [concat_eq_append, under_append_false] at h
    exact .inr ⟨τ, by rw [concat_eq_append], h⟩
  | true =>
    rw [concat_eq_append, under_append_true] at h
    cases h

theorem Closed.under (hclosed : Closed lay) (p : ν) : Closed (under p lay) := by
  intro b σ h
  obtain ⟨q, hq⟩ := ne_none_iff_exists'.mp h
  rcases under_cases hq with ⟨hnil, _⟩ | ⟨τ, hτ, hlay⟩
  · cases hnil
  cases τ with
  | nil =>
    cases hτ
    exact some_ne_none p
  | cons c τ =>
    obtain ⟨rfl, rfl⟩ := cons.inj hτ
    rw [show τ.append [false] = τ ++ [false] from rfl, under_append_false]
    exact hclosed b τ (by rw [hlay]; exact some_ne_none q)

theorem Ordered.under (hord : Ordered R lay) (htop : ∀ q, lay [] = some q → R p q) :
    Ordered R (under p lay) := by
  intro b σ m q hm hq
  rcases under_cases hq with ⟨hnil, _⟩ | ⟨τ, hτ, hlay⟩
  · cases hnil
  cases τ with
  | nil =>
    cases hτ
    rw [under_nil, Option.some.injEq] at hm
    rw [← hm]
    exact htop q hlay
  | cons c τ =>
    obtain ⟨rfl, rfl⟩ := cons.inj hτ
    rw [show τ.append [false] = τ ++ [false] from rfl, under_append_false] at hm
    exact hord b τ m q hm hlay

/-- A key that goes left and then on like another. -/
theorem Follows.append_false {key key' : Nat → Bool} (hfirst : key' 0 = false)
    (hkey : ∀ n, key' (n + 1) = key n) (hσ : Follows key σ) :
    Follows key' (σ ++ [false]) := by
  induction σ with
  | nil => exact ⟨hfirst.symm, trivial⟩
  | cons b σ ih => ?_
  refine ⟨?_, ih hσ.2⟩
  rw [hσ.1, ← hkey]
  show key' (σ.length + 1) = key' (σ ++ [false]).length
  rw [length_append, length_singleton]

end under

end Positions
