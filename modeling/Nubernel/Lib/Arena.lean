import Mathlib.Data.List.Nodup
import Mathlib.Data.List.Perm.Basic

/-! # Arenas

Records that the code reaches through pointers are kept in a list and
named by a key that is one of their fields, their address. `at?` follows
a pointer, `modify` writes through it and `free` drops the record.

With distinct keys all three act on one place of the list
(`exists_split`): that is how invariants that sum or count over the
records are proved, up to the order of the list.
-/

open List

namespace Arena

variable {α κ : Type} [DecidableEq κ] (key : α → κ)

/-- The record at `k`. -/
def at? (l : List α) (k : κ) : Option α := l.find? fun a => decide (key a = k)

/-- Change the record at `k`. -/
def modify (k : κ) (f : α → α) (l : List α) : List α :=
  l.map fun a => if key a = k then f a else a

/-- Drop the record at `k`. -/
def free (k : κ) (l : List α) : List α := l.filter fun a => decide (key a ≠ k)

variable {key}

variable {l : List α} {k : κ} {f : α → α}

theorem mem_of_at? {a : α} (h : at? key l k = some a) :
    a ∈ l ∧ key a = k := by
  have h1 := mem_of_find?_eq_some h
  have h2 := List.find?_some h
  exact ⟨h1, by simpa using h2⟩

theorem modify_forall {P : α → Prop} (h : ∀ a ∈ l, P a)
    (hf : ∀ a ∈ l, key a = k → P (f a)) : ∀ a ∈ modify key k f l, P a := by
  intro a ha
  obtain ⟨b, hb, rfl⟩ := mem_map.mp ha
  split
  · exact hf b hb (by assumption)
  · exact h b hb

theorem modify_of_forall_ne (h : ∀ a ∈ l, key a ≠ k) :
    modify key k f l = l := by
  induction l with
  | nil => rfl
  | cons b l ih => ?_
  have hb := h b (by simp)
  have hl := ih fun a ha => h a (by simp [ha])
  simp only [modify] at hl
  simp [modify, hb, hl]

section
variable {pre post : List α} {a : α}
variable (hnd : ((pre ++ a :: post).map key).Nodup)
include hnd

omit [DecidableEq κ] in
/-- The keys of all records but one differ from its key. -/
theorem ne_of_split :
    ∀ b ∈ pre ++ post, key b ≠ key a := by
  intro b hb heq
  have hp : ((pre ++ a :: post).map key).Perm (key a :: (pre ++ post).map key) :=
    perm_middle.map _
  have hn := (nodup_cons.mp (hp.nodup_iff.mp hnd)).1
  exact hn (heq ▸ mem_map_of_mem hb)

theorem modify_split
    (f : α → α) : modify key (key a) f (pre ++ a :: post) = pre ++ f a :: post := by
  have hne := ne_of_split hnd
  have hpre := modify_of_forall_ne (f := f) fun b hb => hne b (mem_append_left post hb)
  have hpost := modify_of_forall_ne (f := f) fun b hb => hne b (mem_append_right pre hb)
  simp only [modify] at hpre hpost
  simp [modify, hpre, hpost]

theorem free_split :
    free key (key a) (pre ++ a :: post) = pre ++ post := by
  have hne := ne_of_split hnd
  rw [free, filter_append, filter_cons_of_neg (by simp), ← filter_append, filter_eq_self]
  simpa using hne

theorem at?_split :
    at? key (pre ++ a :: post) (key a) = some a := by
  have hne := ne_of_split hnd
  have hpre : pre.find? (fun b => decide (key b = key a)) = none := by
    simp only [List.find?_eq_none, decide_eq_true_eq]
    exact fun b hb => hne b (mem_append_left post hb)
  simp [at?, List.find?_append, hpre]

end

variable {a : α}

/-- With distinct keys a record sits at one place, and the operations at
its key act on that place. -/
theorem exists_split (hnd : (l.map key).Nodup) (ha : a ∈ l) :
    ∃ pre post, l = pre ++ a :: post ∧
      (∀ f, modify key (key a) f l = pre ++ f a :: post) ∧ free key (key a) l = pre ++ post := by
  obtain ⟨pre, post, rfl⟩ := append_of_mem ha
  exact ⟨pre, post, rfl, modify_split hnd, free_split hnd⟩

/-- The record added last is found, if its key is new. -/
theorem at?_append_singleton (h : ∀ b ∈ l, key b ≠ key a) :
    at? key (l ++ [a]) (key a) = some a := by
  have : l.find? (fun b => decide (key b = key a)) = none := by
    simpa [List.find?_eq_none] using h
  simp [at?, List.find?_append, this]

theorem modify_append_singleton (h : ∀ b ∈ l, key b ≠ key a) (f : α → α) :
    modify key (key a) f (l ++ [a]) = l ++ [f a] := by
  have hl := modify_of_forall_ne (f := f) h
  simp only [modify] at hl
  simp [modify, hl]

/-- Changes that keep the key keep all keys. -/
theorem map_key_modify (hf : ∀ a, key a = k → key (f a) = k) :
    (modify key k f l).map key = l.map key := by
  simp only [modify, map_map]
  refine map_congr_left fun a _ => ?_
  by_cases h : key a = k <;> simp [h, hf]

theorem map_key_free_sublist (k : κ) (l : List α) :
    ((free key k l).map key).Sublist (l.map key) :=
  filter_sublist.map key

end Arena
