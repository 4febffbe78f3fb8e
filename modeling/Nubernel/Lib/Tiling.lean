import Mathlib.Order.Basic

/-! # Tilings of a range

A range `0 .. T` that is divided into tiles without gap or overlap: `len o` is
the length of the tile that starts at `o`, if one does. One tile can be split
into two, and two neighbours can be merged into one.
-/

/-- The tiles divide the range `0 .. T`. -/
structure Tiling (T : Nat) (len : Nat → Option Nat) : Prop where
  first : len 0 ≠ none
  pos : ∀ {o n}, len o = some n → 0 < n
  inside : ∀ {o n}, len o = some n → o + n ≤ T
  next : ∀ {o n}, len o = some n → o + n ≠ T → len (o + n) ≠ none
  gap : ∀ {o n o'}, len o = some n → o < o' → o' < o + n → len o' = none

open Function Option

namespace Tiling

section maps
variable {α β : Type} [DecidableEq α] {f : α → Option β} {a a' x : α} {b b' y : β}

theorem update_eq_some (h : update f a (some b) x = some y) :
    x = a ∧ y = b ∨ x ≠ a ∧ f x = some y := by
  by_cases hx : x = a
  · subst hx
    rw [update_self, Option.some.injEq] at h
    exact .inl ⟨rfl, h.symm⟩
  rw [update_of_ne hx] at h
  exact .inr ⟨hx, h⟩

/-- Two places of a map are set. -/
theorem update_update_eq_some (h : update (update f a (some b)) a' (some b') x = some y) :
    x = a ∧ y = b ∨ x = a' ∧ y = b' ∨ x ≠ a ∧ x ≠ a' ∧ f x = some y := by
  rcases update_eq_some h with hset | ⟨hne', h⟩
  · exact .inr (.inl hset)
  rcases update_eq_some h with hset | ⟨hne, h⟩
  · exact .inl hset
  · exact .inr (.inr ⟨hne, hne', h⟩)

/-- One place is set, another one cleared. -/
theorem update_none_eq_some (h : update (update f a' none) a (some b) x = some y) :
    x = a ∧ y = b ∨ x ≠ a ∧ x ≠ a' ∧ f x = some y := by
  rcases update_eq_some h with hset | ⟨hne, h⟩
  · exact .inl hset
  refine .inr ⟨hne, ?_⟩
  by_cases hx : x = a'
  · rw [hx, update_self] at h
    cases h
  rw [update_of_ne hx] at h
  exact ⟨hx, h⟩

end maps

variable {T : Nat} {len : Nat → Option Nat} {o n o' n' : Nat}

/-- Each tile for itself, and any two of them. -/
theorem of_tiles (hfirst : len 0 ≠ none)
    (htile : ∀ {o n}, len o = some n → 0 < n ∧ o + n ≤ T ∧ (o + n ≠ T → len (o + n) ≠ none))
    (hapart : ∀ {o n o' n'}, len o = some n → len o' = some n' → o < o' → o + n ≤ o') :
    Tiling T len := by
  refine ⟨hfirst, fun h => (htile h).1, fun h => (htile h).2.1, fun h => (htile h).2.2, ?_⟩
  intro o n o' h hlo hhi
  by_contra hsome
  obtain ⟨n', h'⟩ := ne_none_iff_exists'.mp hsome
  have hle := hapart h h' hlo
  omega

theorem single (hT : 0 < T) : Tiling T (update (fun _ => none) 0 (some T)) := by
  have hlen : ∀ {o n : Nat}, update (fun _ => none) 0 (some T) o = some n →
      o = 0 ∧ n = T := by
    intro o n h
    rcases update_eq_some h with hset | ⟨_, h⟩
    · exact hset
    · cases h
  refine of_tiles (by simp) ?_ ?_
  · intro o n h
    obtain ⟨rfl, rfl⟩ := hlen h
    omega
  intro o n o' n' h h' hlt
  have hzero := (hlen h').1
  omega

section
variable (ht : Tiling T len)
include ht

/-- The next tile starts where this one ends, or later. -/
theorem le_of_lt (h : len o = some n) (h' : len o' = some n') (hlt : o < o') : o + n ≤ o' := by
  by_contra hlt'
  rw [ht.gap h hlt (by omega)] at h'
  cases h'

theorem covers {x : Nat} (hx : x < T) :
    ∃ o n, len o = some n ∧ o ≤ x ∧ x < o + n := by
  have hlast : ∀ k, ∀ p m, len p = some m → p ≤ x → x - p ≤ k →
      ∃ o n, len o = some n ∧ o ≤ x ∧ x < o + n := by
    intro k
    induction k with
    | zero =>
      intro p m hp hle hk
      have hpos := ht.pos hp
      exact ⟨p, m, hp, hle, by omega⟩
    | succ k ih => ?_
    intro p m hp hle hk
    have hpos := ht.pos hp
    by_cases hlt : x < p + m
    · exact ⟨p, m, hp, hle, hlt⟩
    obtain ⟨m', hm'⟩ := ne_none_iff_exists'.mp (ht.next hp (by omega))
    exact ih (p + m) m' hm' (by omega) (by omega)
  obtain ⟨m, hm⟩ := ne_none_iff_exists'.mp ht.first
  exact hlast x 0 m hm (by omega) (by omega)

/-- Each tile but the first comes after another. -/
theorem pred (h : len o = some n) (hne : o ≠ 0) :
    ∃ p m, len p = some m ∧ p + m = o := by
  have hin := ht.inside h
  obtain ⟨p, m, hp, hle, hlt⟩ := ht.covers (x := o - 1) (by omega)
  have hend := ht.le_of_lt hp h (by omega)
  exact ⟨p, m, hp, by omega⟩

theorem disjoint (h : len o = some n) (h' : len o' = some n') (hne : o ≠ o') :
    o + n ≤ o' ∨ o' + n' ≤ o := by
  rcases Nat.lt_or_gt_of_ne hne with hlt | hgt
  · exact .inl (ht.le_of_lt h h' hlt)
  · exact .inr (ht.le_of_lt h' h hgt)

theorem split {a b : Nat} (ha : 0 < a) (hb : 0 < b) (h : len o = some (a + b)) :
    Tiling T (update (update len o (some a)) (o + a) (some b)) := by
  have hstart : ∀ x, len x ≠ none →
      update (update len o (some a)) (o + a) (some b) x ≠ none := by
    intro x hx
    by_cases hxb : x = o + a
    · simp [hxb]
    rw [update_of_ne hxb]
    by_cases hxa : x = o
    · simp [hxa]
    · rwa [update_of_ne hxa]
  have hin := ht.inside h
  refine of_tiles (hstart 0 ht.first) ?_ ?_
  · intro x n hx
    rcases update_update_eq_some hx with ⟨rfl, rfl⟩ | ⟨rfl, rfl⟩ | ⟨_, _, hx⟩
    · exact ⟨ha, by omega, fun _ => by simp⟩
    · refine ⟨hb, by omega, fun hne => ?_⟩
      rw [Nat.add_assoc] at hne ⊢
      exact hstart _ (ht.next h hne)
    · exact ⟨ht.pos hx, ht.inside hx, fun hne => hstart _ (ht.next hx hne)⟩
  intro x n x' n' hx hx' hlt
  -- Either is one of the two, or was there before and is apart from both.
  rcases update_update_eq_some hx with ⟨rfl, rfl⟩ | ⟨rfl, rfl⟩ | ⟨hne, _, hold⟩ <;>
    rcases update_update_eq_some hx' with ⟨rfl, rfl⟩ | ⟨rfl, rfl⟩ | ⟨hne', _, hold'⟩
  any_goals omega
  · exact (ht.disjoint h hold' hne'.symm).elim (by omega) (by omega)
  · exact (ht.disjoint h hold' hne'.symm).elim (by omega) (by omega)
  · exact ht.le_of_lt hold h hlt
  · have hpos := ht.pos hold
    exact (ht.disjoint hold h hne).elim (by omega) (by omega)
  · exact ht.le_of_lt hold hold' hlt

theorem merge {a b : Nat} (ha : len o = some a) (hb : len (o + a) = some b) :
    Tiling T (update (update len (o + a) none) o (some (a + b))) := by
  have hposa := ht.pos ha
  have hin := ht.inside hb
  have hstart : ∀ x, x ≠ o + a → len x ≠ none →
      update (update len (o + a) none) o (some (a + b)) x ≠ none := by
    intro x hne hx
    by_cases hxo : x = o
    · simp [hxo]
    · rwa [update_of_ne hxo, update_of_ne hne]
  refine of_tiles (hstart 0 (by omega) ht.first) ?_ ?_
  · intro x n hx
    rcases update_none_eq_some hx with ⟨rfl, rfl⟩ | ⟨hxo, _, hx⟩
    · refine ⟨by omega, by omega, fun hne => ?_⟩
      have hposb := ht.pos hb
      rw [← Nat.add_assoc] at hne ⊢
      exact hstart _ (by omega) (ht.next hb hne)
    refine ⟨ht.pos hx, ht.inside hx, fun hne => hstart _ ?_ (ht.next hx hne)⟩
    -- Another tile that ended where the second one began would be the first.
    exact (ht.disjoint hx ha hxo).elim (by omega) (by omega)
  intro x n x' n' hx hx' hlt
  rcases update_none_eq_some hx with ⟨rfl, rfl⟩ | ⟨_, hne, hold⟩ <;>
    rcases update_none_eq_some hx' with ⟨rfl, rfl⟩ | ⟨_, hne', hold'⟩
  · omega
  · have hle := ht.le_of_lt ha hold' hlt
    have hle' := ht.le_of_lt hb hold' (by omega)
    omega
  · exact ht.le_of_lt hold ha hlt
  · exact ht.le_of_lt hold hold' hlt

end

end Tiling
