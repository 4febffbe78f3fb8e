import Mathlib.Data.List.Nodup
import Nubernel.Rbtree.Tree

/-! # Red-black trees as indexes

A tree of pointers ordered by a key that is read through them. The code
that uses such trees searches them by key (`lookup`), links a new entry
where the search ends and erases entries it has a pointer to. `Indexes`
says which entries a tree holds; each operation changes that set as
expected as long as no two entries have the same key.
-/

open List

namespace Nubernel.Rbtree

variable {α : Type}

/-- The search for an entry by its key. -/
def lookup (key : α → Nat) (k : Nat) : Tree α → Option α
  | .leaf => none
  | .node _ l x r =>
    if k < key x then lookup key k l
    else if key x < k then lookup key k r
    else some x

/-- `t` holds the entries that meet `P`, in the order of distinct keys. -/
structure Indexes (key : α → Nat) (P : α → Prop) (t : Tree α) : Prop where
  sorted : t.toList.Pairwise fun a b => key a < key b
  mem : ∀ a, a ∈ t.toList ↔ P a

theorem lookup_eq_some {key : α → Nat} {t : Tree α}
    (h : t.toList.Pairwise fun a b => key a < key b) {k : Nat} {a : α} :
    lookup key k t = some a ↔ a ∈ t.toList ∧ key a = k := by
  induction t with
  | leaf => simp [lookup]
  | node c l x r ihl ihr => ?_
  simp only [toList_node, pairwise_append, pairwise_cons] at h
  obtain ⟨hl, ⟨hxr, hr⟩, hlr⟩ := h
  have hbefore : ∀ b ∈ l.toList, key b < key x := fun b hb => hlr b hb x (by simp)
  simp only [toList_node, mem_append, mem_cons]
  unfold lookup
  split
  · rename_i hlt
    rw [ihl hl]
    constructor
    · rintro ⟨ha, hk⟩
      exact ⟨.inl ha, hk⟩
    rintro ⟨ha | rfl | ha, hk⟩
    · exact ⟨ha, hk⟩
    · omega
    have := hxr a ha
    omega
  split
  · rename_i hgt
    rw [ihr hr]
    constructor
    · rintro ⟨ha, hk⟩
      exact ⟨.inr (.inr ha), hk⟩
    rintro ⟨ha | rfl | ha, hk⟩
    · have := hbefore a ha
      omega
    · omega
    · exact ⟨ha, hk⟩
  rw [Option.some.injEq]
  constructor
  · rintro rfl
    exact ⟨.inr (.inl rfl), by omega⟩
  rintro ⟨ha | rfl | ha, hk⟩
  · have := hbefore a ha
    omega
  · rfl
  have := hxr a ha
  omega

namespace Indexes

variable {key key' : α → Nat} {P P' : α → Prop} {t : Tree α}

theorem leaf (key : α → Nat) (hP : ∀ a, ¬ P a) : Indexes key P .leaf :=
  ⟨.nil, fun a => by simp [hP a]⟩

section
variable (h : Indexes key P t)
include h

theorem congr (hP : ∀ a, P' a ↔ P a) (hkey : ∀ a, P a → key' a = key a) :
    Indexes key' P' t := by
  constructor
  · apply h.sorted.imp_of_mem
    intro a b ha hb hab
    rw [hkey a ((h.mem a).mp ha), hkey b ((h.mem b).mp hb)]
    exact hab
  intro a
  rw [h.mem, hP]

variable {k : Nat} {a : α}

theorem lookup_some :
    lookup key k t = some a ↔ P a ∧ key a = k := by
  rw [lookup_eq_some h.sorted, h.mem]

theorem lookup_none :
    lookup key k t = none ↔ ∀ a, P a → key a ≠ k := by
  constructor
  · intro hnone a ha hk
    have := h.lookup_some.mpr ⟨ha, hk⟩
    rw [hnone] at this
    cases this
  intro hne
  cases hl : lookup key k t with
  | none => rfl
  | some a =>
    obtain ⟨ha, hk⟩ := h.lookup_some.mp hl
    exact absurd hk (hne a ha)

theorem inj {b : α} (ha : P a) (hb : P b) (hab : key a = key b) :
    a = b := by
  have h1 := h.lookup_some.mpr ⟨ha, hab⟩
  have h2 := h.lookup_some.mpr ⟨hb, rfl⟩
  rw [h1] at h2
  exact Option.some.inj h2

theorem nodup : t.toList.Nodup := by
  apply h.sorted.imp
  intro a b hab heq
  rw [heq] at hab
  exact Nat.lt_irrefl _ hab

omit h in
/-- Linking a new entry whose key no other entry has. -/
theorem insert (h : Indexes key P t) {a : α} {k : Nat} (hkey : ∀ b, P b → key' b = key b)
    (hk : key' a = k) (hnew : ∀ b, P b → key b ≠ k) :
    Indexes key' (fun b => b = a ∨ P b) (rb_insert (fun b => decide (k < key b)) a t) := by
  have hlist : (rb_insert (fun b => decide (k < key b)) a t).toList =
      t.toList.filter (fun b => !decide (k < key b)) ++
        a :: t.toList.filter fun b => decide (k < key b) := by
    apply rb_insert_toList
    apply h.sorted.imp
    intro b c hbc
    simp only [decide_eq_true_eq]
    omega
  have hbelow : ∀ b ∈ t.toList.filter (fun b => !decide (k < key b)), P b ∧ key b < k := by
    intro b hb
    obtain ⟨hmem, hle⟩ := mem_filter.mp hb
    simp only [Bool.not_eq_true', decide_eq_false_iff_not] at hle
    have hP := (h.mem b).mp hmem
    have hne := hnew b hP
    exact ⟨hP, by omega⟩
  have habove : ∀ b ∈ t.toList.filter (fun b => decide (k < key b)), P b ∧ k < key b := by
    intro b hb
    obtain ⟨hmem, hlt⟩ := mem_filter.mp hb
    exact ⟨(h.mem b).mp hmem, by simpa using hlt⟩
  have hsorted' : t.toList.Pairwise fun b c => key' b < key' c := by
    exact (h.congr (fun _ => Iff.rfl) hkey).sorted
  constructor
  · rw [hlist, pairwise_append, pairwise_cons]
    refine ⟨hsorted'.filter _, ⟨?_, hsorted'.filter _⟩, ?_⟩
    · intro c hc
      obtain ⟨hP, hlt⟩ := habove c hc
      rw [hk, hkey c hP]
      exact hlt
    intro b hb c hc
    obtain ⟨hPb, hltb⟩ := hbelow b hb
    rw [hkey b hPb]
    rcases mem_cons.mp hc with rfl | hc
    · omega
    obtain ⟨hPc, hltc⟩ := habove c hc
    rw [hkey c hPc]
    omega
  intro b
  rw [hlist, mem_append, mem_cons]
  constructor
  · rintro (hb | rfl | hb)
    · exact .inr (hbelow b hb).1
    · exact .inl rfl
    · exact .inr (habove b hb).1
  rintro (rfl | hb)
  · exact .inr (.inl rfl)
  have hmem := (h.mem b).mpr hb
  by_cases hlt : k < key b
  · exact .inr (.inr (mem_filter.mpr ⟨hmem, by simpa using hlt⟩))
  · exact .inl (mem_filter.mpr ⟨hmem, by simpa using hlt⟩)

theorem erase [DecidableEq α] (ha : P a) (hkey : ∀ b, b ≠ a → P b → key' b = key b) :
    Indexes key' (fun b => b ≠ a ∧ P b) (rb_erase a t) := by
  obtain ⟨pre, post, hsplit, hlist⟩ := rb_erase_toList ((h.mem a).mpr ha)
  have hnd := h.nodup
  rw [hsplit, nodup_middle, nodup_cons] at hnd
  have hmem : ∀ b, b ∈ pre ++ post ↔ b ≠ a ∧ P b := by
    intro b
    rw [← h.mem b, hsplit, perm_middle.mem_iff, mem_cons]
    constructor
    · intro hb
      refine ⟨?_, .inr hb⟩
      intro heq
      rw [heq] at hb
      exact hnd.1 hb
    intro hb
    exact hb.2.resolve_left hb.1
  have hsub : (pre ++ post).Sublist t.toList := by
    rw [hsplit]
    exact (List.Sublist.refl pre).append (sublist_cons_self a post)
  constructor
  · rw [hlist]
    apply (h.sorted.sublist hsub).imp_of_mem
    intro b c hb hc hbc
    rw [hkey b ((hmem b).mp hb).1 ((hmem b).mp hb).2, hkey c ((hmem c).mp hc).1 ((hmem c).mp hc).2]
    exact hbc
  intro b
  rw [hlist]
  exact hmem b

end

end Indexes

/-! ### Indexes of several owners -/

section family
variable {β : Type} {key key' : α → Nat} {owns owns' : β → α → Prop} {trees trees' : β → Tree α}

/-- The index of each owner holds what it owns. -/
def Family (key : α → Nat) (owns : β → α → Prop) (trees : β → Tree α) : Prop :=
  ∀ p, Indexes key (owns p) (trees p)

section
variable (h : Family key owns trees)
include h

theorem Family.congr (howns : ∀ p a, owns' p a ↔ owns p a) (hkey : ∀ p a, owns p a → key' a = key a)
    (htrees : ∀ p, trees' p = trees p) :
    Family key' owns' trees' := by
  intro p
  rw [htrees p]
  exact (h p).congr (howns p) (hkey p)

theorem Family.insert {p : β} {a : α} {k : Nat} (hnew : lookup key k (trees p) = none)
    (hk : key' a = k) (hkey : ∀ q b, owns q b → key' b = key b)
    (howns : ∀ q b, owns' q b ↔ (q = p ∧ b = a) ∨ owns q b)
    (htrees : ∀ q, q ≠ p → trees' q = trees q)
    (htree : trees' p = rb_insert (fun b => decide (k < key b)) a (trees p)) :
    Family key' owns' trees' := by
  intro q
  by_cases hq : q = p
  · subst hq
    rw [htree]
    apply ((h q).insert (hkey q) hk ((h q).lookup_none.mp hnew)).congr
    · intro b
      rw [howns q b]
      simp
    exact fun _ _ => rfl
  rw [htrees q hq]
  apply (h q).congr
  · intro b
    rw [howns q b]
    simp [hq]
  exact hkey q

theorem Family.erase [DecidableEq α] {p : β} {a : α} (ha : owns p a) (honly : ∀ q, owns q a → q = p)
    (hkey : ∀ q b, b ≠ a → owns q b → key' b = key b) (howns : ∀ q b, owns' q b ↔ b ≠ a ∧ owns q b)
    (htrees : ∀ q, q ≠ p → trees' q = trees q) (htree : trees' p = rb_erase a (trees p)) :
    Family key' owns' trees' := by
  intro q
  by_cases hq : q = p
  · subst hq
    rw [htree]
    exact ((h q).erase ha (hkey q)).congr (howns q) fun _ _ => rfl
  rw [htrees q hq]
  have hne : ∀ b, owns q b → b ≠ a := by
    rintro b hb rfl
    exact hq (honly q hb)
  apply (h q).congr
  · intro b
    rw [howns q b]
    exact ⟨fun hb => hb.2, fun hb => ⟨hne b hb, hb⟩⟩
  exact fun b hb => hkey q b (hne b hb) hb

end

end family

end Nubernel.Rbtree
