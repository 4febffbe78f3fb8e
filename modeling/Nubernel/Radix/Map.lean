import Mathlib.Data.Nat.Log
import Mathlib.Order.Interval.Finset.Nat
import Nubernel.Radix.Paths

/-! # radix-tree: a tree is a partial map

The operations on whole trees. From what they do along the path to an index
(`Nubernel.Radix.Paths`) follows what each does to the items that are found
and to their tags (`item`, `tagged`), and from this that the tree refines a
partial map.
-/

open Function LTS List Option

namespace Nubernel.Radix

/-! ## Whole trees -/

/-- What holds of a tree between two operations. -/
structure Inv (root : Root) : Prop where
  height : root.height ≤ RADIX_TREE_MAX_PATH
  wf : WF root.height root.rnode
  ok : ∀ t, TagOK t root.height root.rnode (root.tags t)

/-- The item of the tree at an index. -/
def item (root : Root) (j : Nat) : Option Nat :=
  if j < 64 ^ root.height then get root.height root.rnode j else none

/-- The tag of the item at an index. -/
def tagged (root : Root) (t : Fin 2) (j : Nat) : Bool :=
  if j < 64 ^ root.height then tagAt t root.height root.rnode (root.tags t) j else false

theorem Inv.init : Inv INIT_RADIX_TREE :=
  ⟨Nat.zero_le _, WF_null, fun _ => TagOK_null.mpr rfl⟩

theorem item_init (j : Nat) : item INIT_RADIX_TREE j = none := by
  unfold item
  exact ite_self _

theorem tagged_init (t : Fin 2) (j : Nat) : tagged INIT_RADIX_TREE t j = false := by
  unfold tagged
  exact ite_self _

variable {height index : Nat} {allocs : List Bool} {frees : List Slot} {call : Call}

/-- An index is too large for a tree exactly if it has too many digits. -/
theorem gt_maxindex_iff (hheight : height ≤ RADIX_TREE_MAX_PATH) (hindex : index < 2 ^ 32) :
    index > radix_tree_maxindex height ↔ ¬index < 64 ^ height := by
  have hmax : ∀ h < 7, radix_tree_maxindex h = min (64 ^ h) (2 ^ 32) - 1 := by decide
  have hpos := Nat.pow_pos (n := height) (show 0 < 64 by decide)
  rw [hmax height (Nat.lt_succ_of_le hheight)]
  omega

section root
variable {root : Root} (hinv : Inv root) {index : Nat} (hindex : index < 2 ^ 32)
include hinv hindex

theorem Inv.gt_iff : index > radix_tree_maxindex root.height ↔ ¬index < 64 ^ root.height :=
  gt_maxindex_iff hinv.height hindex

theorem radix_tree_lookup_eq : radix_tree_lookup root index = some (item root index) := by
  obtain ⟨height, tags, rnode⟩ := root
  have hfind := find_at_eq hinv.wf index
  unfold radix_tree_lookup item
  match height, rnode with
  | height, .null =>
    simp
  | 0, .item p =>
    by_cases hzero : index = 0
    · subst hzero
      rfl
    simp [if_pos (Nat.pos_of_ne_zero hzero), if_neg hzero]
  | _ + 1, .item _ => exact absurd hinv.wf id
  | 0, .node _ _ _ _ => exact absurd hinv.wf id
  | h + 1, .node height count slots tags =>
    have hheight : height = h + 1 := hinv.wf.1
    subst hheight
    have hgt := hinv.gt_iff hindex
    simp only [hgt]
    by_cases hlt : index < 64 ^ (h + 1)
    · rw [if_neg (not_not_intro hlt), if_pos hlt]
      rw [hfind]
      cases hget : get (h + 1) (.node (h + 1) count slots tags) index with
      | none => rfl
      | some p =>
        have heven := get_even hinv.wf hget
        simp [indirect_to_ptr, heven]
    rw [if_pos hlt, if_neg hlt]

end root

/-- Nothing that is found changes. -/
structure Keeps (root root' : Root) : Prop where
  inv : Inv root'
  items : ∀ j, item root' j = item root j
  tags : ∀ t j, tagged root' t j = tagged root t j

variable {root root₁ root' : Root} {n h index p : Nat} {o : Fin 64} {ret : Int} {s' : Slot}
variable {allocs' : List Bool} {granted : Prop}

theorem Keeps.refl (hinv : Inv root) : Keeps root root :=
  ⟨hinv, fun _ => rfl, fun _ _ => rfl⟩

theorem Keeps.trans {root₂ : Root} (h₁ : Keeps root root₁) (h₂ : Keeps root₁ root₂) :
    Keeps root root₂ :=
  ⟨h₂.inv, fun j => (h₂.items j).trans (h₁.items j), fun t j => (h₂.tags t j).trans (h₁.tags t j)⟩

/-! ## Inserting -/

/-- The first `n` requests for a node are granted. -/
def Granted (n : Nat) (allocs : List Bool) : Prop := allocs.take n = replicate n true

theorem granted_zero : Granted 0 allocs := rfl

theorem granted_succ {ok : Bool} {rest : List Bool}
    (halloc : radix_tree_node_alloc allocs = (ok, rest)) :
    Granted (n + 1) allocs ↔ ok = true ∧ Granted n rest := by
  unfold Granted
  cases allocs with
  | nil =>
    cases halloc
    exact iff_of_false (fun h => by cases h) fun h => by cases h.1
  | cons ok' rest' =>
    cases halloc
    rw [take_succ_cons, replicate_succ, cons.injEq]

theorem Granted.mono {m : Nat} (hle : m ≤ n) (hgr : Granted n allocs) :
    Granted m allocs := by
  unfold Granted at hgr ⊢
  rw [← Nat.min_eq_left hle, ← take_take, hgr, take_replicate, Nat.min_eq_left hle]

/-- The nodes that are missing on the way down to the index. -/
def missing (index : Nat) : Nat → Slot → Nat
  | h, .null => h
  | h + 1, .node _ _ slots _ => missing index h (slots (offset index h))
  | _, _ => 0

@[simp] theorem missing_null : missing index h .null = h := by
  cases h <;> rfl

theorem missing_le (s : Slot) : missing index h s ≤ h := by
  induction h generalizing s with
  | zero => cases s <;> exact Nat.le_refl _
  | succ h ih =>
    cases s with
    | null => exact Nat.le_refl _
    | item p => exact Nat.zero_le _
    | node height count slots tags => exact (ih _).trans (Nat.le_succ h)

/-- How many nodes are needed to insert the index: those that are missing below the root,
and if the tree has to become higher, a node for each new level and those below the
new root. -/
def needed (root : Root) (index : Nat) : Nat :=
  if index < 64 ^ root.height then missing index root.height root.rnode
  else if root.rnode.isNull then Nat.log 64 index + 1
  else Nat.log 64 index + 1 - root.height + Nat.log 64 index

theorem log_le_five (hindex : index < 2 ^ 32) : Nat.log 64 index ≤ 5 :=
  Nat.le_of_lt_succ (Nat.log_lt_of_lt_pow' (by decide) (by omega))

theorem needed_le (hinv : Inv root) (hindex : index < 2 ^ 32) : needed root index ≤ 11 := by
  have hlog := log_le_five hindex
  have hmissing : missing index root.height root.rnode ≤ root.height := missing_le root.rnode
  have hheight := hinv.height
  unfold needed RADIX_TREE_MAX_PATH at *
  split_ifs <;> omega

/-- The height that `radix_tree_extend` aims at is the least one that is enough for the
index. -/
theorem extend_height_eq {fuel : Nat} (hindex : index < 2 ^ 32) (hpos : 0 < height)
    (hlow : 64 ^ (height - 1) ≤ index) (hheight : height ≤ RADIX_TREE_MAX_PATH)
    (hfuel : RADIX_TREE_MAX_PATH ≤ height + fuel) :
    extend_height index fuel height = Nat.log 64 index + 1 := by
  have hend : index < 64 ^ height → height = Nat.log 64 index + 1 := by
    intro hlt
    have hlog : Nat.log 64 index = height - 1 :=
      Nat.log_eq_of_pow_le_of_lt_pow hlow (by rw [Nat.sub_add_cancel hpos]; exact hlt)
    omega
  have htop : index < 64 ^ RADIX_TREE_MAX_PATH := by
    unfold RADIX_TREE_MAX_PATH
    omega
  induction fuel generalizing height with
  | zero =>
    obtain rfl : height = RADIX_TREE_MAX_PATH := by omega
    exact hend htop
  | succ fuel ih => ?_
  have hgt := gt_maxindex_iff hheight hindex
  unfold extend_height
  by_cases hlt : index < 64 ^ height
  · rw [if_neg (fun h => hgt.mp h hlt)]
    exact hend hlt
  have hne : height ≠ RADIX_TREE_MAX_PATH := by
    rintro rfl
    exact hlt htop
  rw [if_pos (hgt.mpr hlt)]
  refine ih (Nat.succ_pos _) (Nat.le_of_not_lt hlt) (by omega) (by omega) fun hlt' => ?_
  have hlog : Nat.log 64 index = height :=
    Nat.log_eq_of_pow_le_of_lt_pow (Nat.le_of_not_lt hlt) hlt'
  rw [hlog]

/-- The tree below one more node. -/
def raised (root : Root) : Root :=
  { root with
    height := root.height + 1
    rnode := .node (root.height + 1) 1 (setSlot (fun _ => .null) 0 root.rnode)
      fun tag => setSlot (fun _ => false) 0 (root.tags tag) }

theorem setSlot_others {α : Type} {a b : α} (ho : o ≠ 0) :
    setSlot (fun _ => a) 0 b o = a :=
  update_of_ne ho _ _

theorem Keeps.raised (hinv : Inv root) (hne : root.rnode.isNull = false)
    (hheight : root.height < RADIX_TREE_MAX_PATH) : Keeps root (raised root) := by
  have hothers : ∀ o : Fin 64, o ≠ 0 → setSlot (fun _ => Slot.null) 0 root.rnode o = .null :=
    fun o ho => setSlot_others ho
  have hcount : 1 = occupied (setSlot (fun _ => .null) 0 root.rnode) := by
    have hocc := @occupied_setSlot (fun _ => .null) root.rnode 0
    have hzero : occupied (fun _ => .null) = 0 := occupied_eq_zero_iff.mpr fun _ => rfl
    rw [hne, hzero] at hocc
    simp only [Slot.isNull, Bool.not_true, Bool.toNat_false, Bool.not_false, Bool.toNat_true] at hocc
    omega
  have hwf : ∀ o, WF root.height (setSlot (fun _ => .null) 0 root.rnode o) := by
    intro o
    by_cases ho : o = 0
    · rw [ho]
      exact hinv.wf
    rw [hothers o ho]
    exact WF_null
  refine ⟨⟨hheight, ⟨rfl, hcount, hwf⟩, ?_⟩, ?_, ?_⟩
  · intro t
    exact (TagOK_first hothers).mpr ⟨rfl, fun o ho => setSlot_others ho, hinv.ok t⟩
  · intro j
    exact get_first hothers j
  intro t j
  exact tagAt_first hothers j

/-- Below the new root nothing is there for an index that did not fit. -/
theorem missing_raised (hlow : 64 ^ root.height ≤ index) (hhigh : index < 64 ^ (root.height + 1)) :
    missing index (raised root).height (raised root).rnode = root.height := by
  show missing index root.height (setSlot _ 0 root.rnode (offset index root.height)) = _
  rw [setSlot_others fun hzero => absurd ((offset_eq_zero_iff hhigh).mp hzero) (by omega),
    missing_null]

/-- The loop ends at a height above the old one, or for want of memory. -/
theorem extend_loop_spec {fuel : Nat} {root : Root} (hinv : Inv root)
    (hne : root.rnode.isNull = false) (hfuel : root.height + fuel < RADIX_TREE_MAX_PATH) :
    ∃ err root' allocs', extend_loop (fuel + 1) root allocs = (err, root', allocs') ∧
      Keeps root root' ∧
      (err = 0 ∧ (∃ root₀, root' = raised root₀ ∧ root₀.height = root.height + fuel) ∧
          (∀ m, Granted (fuel + 1 + m) allocs ↔ Granted m allocs') ∨
        err = -ENOMEM ∧ ¬Granted (fuel + 1) allocs) := by
  induction fuel generalizing root allocs with
  | zero =>
    unfold extend_loop
    cases halloc : radix_tree_node_alloc allocs with
    | mk ok rest =>
    cases ok with
    | false =>
      refine ⟨-ENOMEM, root, rest, rfl, .refl hinv, .inr ⟨rfl, fun hgr => ?_⟩⟩
      cases ((granted_succ halloc).mp hgr).1
    | true =>
      refine ⟨0, raised root, rest, rfl, .raised hinv hne (by omega),
        .inl ⟨rfl, ⟨root, rfl, rfl⟩, fun m => ?_⟩⟩
      rw [Nat.add_comm, granted_succ halloc]
      exact and_iff_right rfl
  | succ fuel ih => ?_
  unfold extend_loop
  cases halloc : radix_tree_node_alloc allocs with
  | mk ok rest =>
  have hgr : ∀ m, Granted (fuel + 1 + 1 + m) allocs ↔ ok = true ∧ Granted (fuel + 1 + m) rest := by
    intro m
    rw [Nat.add_right_comm]
    exact granted_succ halloc
  cases ok with
  | false =>
    refine ⟨-ENOMEM, root, rest, rfl, .refl hinv, .inr ⟨rfl, fun h => ?_⟩⟩
    cases ((hgr 0).mp h).1
  | true => ?_
  have hkeeps := Keeps.raised hinv hne (by omega)
  obtain ⟨err, root', allocs', heq, hkeeps', hend⟩ := @ih rest (raised root)
    hkeeps.inv rfl (by show root.height + 1 + fuel < _; omega)
  refine ⟨err, root', allocs', heq, hkeeps.trans hkeeps', ?_⟩
  rcases hend with ⟨herr, ⟨root₀, hroot₀, hheight⟩, hrest⟩ | ⟨herr, hnot⟩
  · refine .inl ⟨herr, ⟨root₀, hroot₀, ?_⟩, fun m => ?_⟩
    · rw [hheight]
      show root.height + 1 + fuel = _
      omega
    rw [hgr, hrest]
    exact and_iff_right rfl
  exact .inr ⟨herr, fun h => hnot ((hgr 0).mp h).2⟩

/-- **`radix_tree_extend`** makes room for the index or returns an error; what is
found does not change. -/
theorem radix_tree_extend_spec {root : Root} (hinv : Inv root) (hindex : index < 2 ^ 32)
    (hlarge : ¬index < 64 ^ root.height) :
    ∃ err root' allocs', radix_tree_extend root index allocs = (err, root', allocs') ∧
      Keeps root root' ∧
      (err = 0 ∧ index < 64 ^ root'.height ∧
          (Granted (needed root index) allocs ↔
            Granted (missing index root'.height root'.rnode) allocs') ∨
        err = -ENOMEM ∧ ¬Granted (needed root index) allocs) := by
  have hlow := Nat.le_of_not_lt hlarge
  have hlog : root.height ≤ Nat.log 64 index :=
    Nat.le_log_of_pow_le (by decide) hlow
  have hfive := log_le_five hindex
  have hfits : index < 64 ^ (Nat.log 64 index + 1) := Nat.lt_pow_succ_log_self (by decide) _
  have hheight : extend_height index RADIX_TREE_MAX_PATH (root.height + 1) =
      Nat.log 64 index + 1 :=
    extend_height_eq hindex (Nat.succ_pos _) hlow (by unfold RADIX_TREE_MAX_PATH; omega)
      (Nat.le_add_left _ _)
  unfold radix_tree_extend
  simp only [hheight]
  rw [needed, if_neg hlarge]
  by_cases hnull : root.rnode.isNull = true
  · rw [if_pos hnull, if_pos hnull]
    obtain ⟨height₀, tags, rnode⟩ := root
    obtain rfl : rnode = .null := Slot.isNull_iff.mp hnull
    refine ⟨0, _, allocs, rfl, ⟨⟨?_, WF_null, ?_⟩, ?_, ?_⟩, .inl ⟨rfl, hfits, ?_⟩⟩
    · show Nat.log 64 index + 1 ≤ 6
      omega
    · intro t
      exact TagOK_null.mpr (TagOK_null.mp (hinv.ok t))
    · intro j
      simp [item]
    · intro t j
      simp [tagged]
    rw [missing_null]
  rw [if_neg hnull, if_neg hnull]
  obtain ⟨fuel, hfuel⟩ : ∃ fuel, Nat.log 64 index + 1 - root.height = fuel + 1 :=
    ⟨Nat.log 64 index - root.height, by omega⟩
  rw [hfuel]
  obtain ⟨err, root', allocs', heq, hkeeps, hend⟩ := @extend_loop_spec
    allocs fuel _ hinv (Bool.eq_false_iff.mpr hnull) (by unfold RADIX_TREE_MAX_PATH; omega)
  refine ⟨err, root', allocs', heq, hkeeps, ?_⟩
  rcases hend with ⟨herr, ⟨root₀, rfl, hroot₀⟩, hgr⟩ | ⟨herr, hnot⟩
  · have hlast : root₀.height = Nat.log 64 index := by omega
    refine .inl ⟨herr, ?_, ?_⟩
    · show index < 64 ^ (root₀.height + 1)
      rw [hlast]
      exact hfits
    rw [hgr, missing_raised (by rw [hlast]; exact Nat.pow_log_le_self 64 (by
      have := Nat.pow_pos (n := root.height) (show 0 < 64 by decide)
      omega)) (by rw [hlast]; exact hfits), hlast]
  exact .inr ⟨herr, fun h => hnot (h.mono (Nat.le_add_right _ _))⟩

theorem fill_slot_ret {count : Nat} {slots : Fin 64 → Slot} {tags : Fin 2 → Fin 64 → Bool}
    {r : Option (Int × Slot × List Bool)}
    (heq : fill_slot h o height count slots tags r = some (ret, s', allocs')) :
    ∃ child, r = some (ret, child, allocs') := by
  unfold fill_slot at heq
  match r with
  | none => cases heq
  | some (ret₁, child, allocs₁) =>
    simp only at heq
    split at heq
    · cases heq
    cases heq
    exact ⟨child, rfl⟩

/-- There is an error if and only if not all nodes that are missing are granted. -/
theorem insert_at_nomem {item : Nat} {s : Slot}
    (heq : insert_at index item h s allocs = some (ret, s', allocs')) :
    ret = -ENOMEM ↔ ¬Granted (missing index h s) allocs := by
  induction h generalizing s s' allocs with
  | zero =>
    have hret : ret ≠ -ENOMEM := by
      match s with
      | .null => cases heq; decide
      | .item _ => cases heq; decide
      | .node _ _ _ _ => cases heq; decide
    rw [Nat.le_zero.mp (missing_le s)]
    exact iff_of_false hret (not_not.mpr granted_zero)
  | succ h ih => ?_
  match s with
  | .null =>
    unfold insert_at at heq
    cases halloc : radix_tree_node_alloc allocs with
    | mk ok rest =>
    rw [halloc] at heq
    rw [missing_null, granted_succ halloc]
    cases ok with
    | false =>
      cases heq
      exact iff_of_true rfl fun h => by cases h.1
    | true =>
      obtain ⟨child, hchild⟩ := fill_slot_ret heq
      rw [ih hchild, missing_null, and_iff_right rfl]
  | .item _ => cases heq
  | .node _ _ _ _ =>
    obtain ⟨child, hchild⟩ := fill_slot_ret heq
    exact ih hchild

/-- **What `radix_tree_insert` does**; `granted` says that there is memory. -/
structure InsertSpec (root : Root) (index p : Nat) (granted : Prop) (ret : Int) (root' : Root) :
    Prop where
  inv : Inv root'
  items : ∀ j, item root' j = if ret = 0 ∧ j = index then some p else item root j
  free : item root index = none → ret = 0 ∧ granted ∨ ret = -ENOMEM ∧ ¬granted
  taken : item root index ≠ none → ret = -EEXIST
  tags : ∀ t j, tagged root' t j = tagged root t j

/-- The insertion into a tree that is high enough. -/
theorem insert_at_root {root : Root} {p : Nat} (hinv : Inv root) (hfits : index < 64 ^ root.height)
    (hp : p % 2 = 0) :
    ∃ ret rnode allocs',
      insert_at index p root.height root.rnode allocs = some (ret, rnode, allocs') ∧
      ¬(root.height = 0 ∧ ret = 0 ∧ (root.tags 0 || root.tags 1) = true) ∧
      InsertSpec root index p (Granted (missing index root.height root.rnode) allocs) ret
        { root with rnode := rnode } := by
  obtain ⟨ret, rnode, allocs', heq, hins⟩ := @insert_at_spec index _ hp _ _ _ allocs hinv.wf hinv.ok
  have hitem : item root index = get root.height root.rnode index := if_pos hfits
  refine ⟨ret, rnode, allocs', heq, ?_, ⟨⟨hinv.height, hins.wf, hins.tagOK⟩, ?_, ?_, ?_, ?_⟩⟩
  · -- The root has no tags if there is no item in it.
    rintro ⟨hzero, hret, htags⟩
    have hnone : get root.height root.rnode index = none := by
      by_contra hne
      rw [hins.taken hne] at hret
      exact absurd hret (by decide)
    have hclear := fun t => (hinv.ok t).clear hinv.wf hzero hnone
    rw [hclear 0, hclear 1] at htags
    cases htags
  · intro j
    unfold item
    by_cases hj : j < 64 ^ root.height
    · rw [if_pos hj, if_pos hj, hins.items j]
      simp [same_of_lt hj hfits]
    have hne : ¬(ret = 0 ∧ j = index) := by
      rintro ⟨_, rfl⟩
      exact hj hfits
    rw [if_neg hj, if_neg hj, if_neg hne]
  · intro hfree
    rw [hitem] at hfree
    have hnomem := insert_at_nomem heq
    rcases hins.free hfree with hret | hret
    · refine .inl ⟨hret, not_not.mp fun hnot => ?_⟩
      rw [hnomem.mpr hnot] at hret
      exact absurd hret (by decide)
    exact .inr ⟨hret, hnomem.mp hret⟩
  · intro htaken
    rw [hitem] at htaken
    exact hins.taken htaken
  intro t j
  unfold tagged
  by_cases hj : j < 64 ^ root.height
  · rw [if_pos hj, if_pos hj, hins.tagged t j]
  · rw [if_neg hj, if_neg hj]

/-- Making room first changes nothing about it. -/
theorem InsertSpec.of_keeps {granted₁ : Prop} (hkeeps : Keeps root root₁)
    (hspec : InsertSpec root₁ index p granted₁ ret root')
    (hgr : granted ↔ granted₁) : InsertSpec root index p granted ret root' := by
  refine ⟨hspec.inv, ?_, ?_, ?_, ?_⟩
  · intro j
    rw [hspec.items j, hkeeps.items j]
  · intro hfree
    rw [← hkeeps.items] at hfree
    rw [hgr]
    exact hspec.free hfree
  · intro htaken
    rw [← hkeeps.items] at htaken
    exact hspec.taken htaken
  intro t j
  rw [hspec.tags t j, hkeeps.tags t j]

theorem InsertSpec.of_nomem (hkeeps : Keeps root root') (hfree : item root index = none)
    (hnot : ¬granted) :
    InsertSpec root index p granted (-ENOMEM) root' := by
  refine ⟨hkeeps.inv, ?_, fun _ => .inr ⟨rfl, hnot⟩, fun htaken => absurd hfree htaken, hkeeps.tags⟩
  intro j
  rw [if_neg (fun hboth => absurd hboth.1 (by decide)), hkeeps.items j]

theorem radix_tree_insert_spec {root : Root} {p : Nat} (hinv : Inv root) (hindex : index < 2 ^ 32)
    (hp : p % 2 = 0) :
    ∃ ret root', radix_tree_insert root index p allocs = some (ret, root') ∧
      InsertSpec root index p (Granted (needed root index) allocs) ret root' := by
  have hgt := hinv.gt_iff hindex
  have hodd : ¬p % 2 = 1 := by omega
  unfold radix_tree_insert
  rw [if_neg hodd]
  by_cases hfits : index < 64 ^ root.height
  · obtain ⟨ret, rnode, allocs', heq, hbug, hspec⟩ := @insert_at_root allocs _ _ _ hinv hfits hp
    rw [if_neg (fun hlarge => hgt.mp hlarge hfits)]
    rw [needed, if_pos hfits]
    refine ⟨ret, { root with rnode := rnode }, ?_, hspec⟩
    simp only [ne_eq, not_true_eq_false, if_false, heq]
    rw [if_neg hbug]
  obtain ⟨err, root₁, allocs₁, hext, hkeeps, hend⟩ := @radix_tree_extend_spec
    allocs _ _ hinv hindex hfits
  rw [if_pos (hgt.mpr hfits), hext]
  rcases hend with ⟨rfl, hfits₁, hgr⟩ | ⟨rfl, hnot⟩
  · obtain ⟨ret, rnode, allocs', heq, hbug, hspec⟩ := @insert_at_root allocs₁ _ _ _
      hkeeps.inv hfits₁ hp
    refine ⟨ret, { root₁ with rnode := rnode }, ?_, hspec.of_keeps hkeeps hgr⟩
    simp only [ne_eq, not_true_eq_false, if_false, heq]
    rw [if_neg hbug]
  exact ⟨-ENOMEM, root₁, rfl, .of_nomem hkeeps (if_neg hfits) hnot⟩

/-! ## Tags -/

section tags
variable {root : Root} (hinv : Inv root) {index : Nat} (hindex : index < 2 ^ 32)
include hinv hindex

theorem radix_tree_tag_set_spec (tag : Fin 2) (hitem : item root index = some p) :
    ∃ root', radix_tree_tag_set root index tag = some (some p, root') ∧ Inv root' ∧
      (∀ j, item root' j = item root j) ∧
      ∀ t j, tagged root' t j = (tagged root t j || decide (t = tag ∧ j = index)) := by
  have hgt := hinv.gt_iff hindex
  have hfits : index < 64 ^ root.height := by
    by_contra hlarge
    rw [item, if_neg hlarge] at hitem
    cases hitem
  rw [item, if_pos hfits] at hitem
  obtain ⟨rnode, heq, hset⟩ := tag_set_at_spec hinv.wf (hinv.ok tag) hitem
  refine ⟨{ root with rnode := rnode, tags := update root.tags tag true }, ?_,
    ⟨hinv.height, hset.wf, ?_⟩, ?_, ?_⟩
  · unfold radix_tree_tag_set
    rw [if_neg (fun hlarge => hgt.mp hlarge hfits), heq]
    rfl
  · intro t
    by_cases ht : t = tag
    · subst ht
      show TagOK t root.height rnode (update root.tags t true t)
      rw [update_self]
      exact hset.ok
    show TagOK t root.height rnode (update root.tags tag true t)
    rw [update_of_ne ht]
    exact (hset.others t _ ht (hinv.ok t)).1
  · intro j
    simp [item, hset.items j]
  intro t j
  unfold tagged
  by_cases hj : j < 64 ^ root.height
  · rw [if_pos hj, if_pos hj]
    by_cases ht : t = tag
    · subst ht
      simp [hset.bit j, same_of_lt hj hfits]
    simp only [update_of_ne ht, (hset.others t _ ht (hinv.ok t)).2 j, ht, false_and,
      decide_false, Bool.or_false]
  have hne : ¬(t = tag ∧ j = index) := by
    rintro ⟨_, rfl⟩
    exact hj hfits
  rw [if_neg hj, if_neg hj, decide_eq_false hne]
  rfl

theorem radix_tree_tag_clear_spec (tag : Fin 2) :
    ∃ root', radix_tree_tag_clear root index tag = some (item root index, root') ∧ Inv root' ∧
      (∀ j, item root' j = item root j) ∧ root'.height = root.height ∧
      ∀ t j, tagged root' t j = (tagged root t j && !decide (t = tag ∧ j = index)) := by
  have hgt := hinv.gt_iff hindex
  unfold radix_tree_tag_clear
  by_cases hfits : index < 64 ^ root.height
  · obtain ⟨rnode, go_on, heq, hclr⟩ := @tag_clear_at_spec _ index _ _ _ hinv.wf (hinv.ok tag)
    have hitem : item root index = get root.height root.rnode index := if_pos hfits
    rw [if_neg (fun hlarge => hgt.mp hlarge hfits), heq, hitem]
    have hbit : (if go_on = true then update root.tags tag false else root.tags) tag =
        (root.tags tag && !go_on) := by
      cases go_on <;> simp
    have hother : ∀ t, t ≠ tag →
        (if go_on = true then update root.tags tag false else root.tags) t =
          root.tags t := by
      intro t ht
      cases go_on <;> simp [ht]
    refine ⟨_, rfl, ⟨hinv.height, hclr.wf, ?_⟩, ?_, rfl, ?_⟩
    · intro t
      by_cases ht : t = tag
      · subst ht
        simp only [hbit]
        exact hclr.ok
      simp only [hother t ht]
      exact (hclr.others t _ ht (hinv.ok t)).1
    · intro j
      simp [item, hclr.items j]
    intro t j
    unfold tagged
    by_cases hj : j < 64 ^ root.height
    · rw [if_pos hj, if_pos hj]
      by_cases ht : t = tag
      · subst ht
        simp [hbit, hclr.bit j, same_of_lt hj hfits]
      simp only [hother t ht, (hclr.others t _ ht (hinv.ok t)).2 j, ht, false_and,
        decide_false, Bool.not_false, Bool.and_true]
    rw [if_neg hj, if_neg hj]
    rfl
  have hnone : item root index = none := if_neg hfits
  rw [if_pos (hgt.mpr hfits), hnone]
  refine ⟨root, rfl, hinv, fun _ => rfl, rfl, ?_⟩
  intro t j
  by_cases heq : t = tag ∧ j = index
  · have huntagged : tagged root t j = false := by
      rw [heq.2]
      exact if_neg hfits
    rw [huntagged]
    rfl
  rw [decide_eq_false heq, Bool.not_false, Bool.and_true]

theorem radix_tree_tag_get_eq (t : Fin 2) :
    radix_tree_tag_get root index t = some (tagged root t index) := by
  obtain ⟨height, tags, rnode⟩ := root
  have hok := hinv.ok t
  unfold radix_tree_tag_get tagged
  cases hroot : tags t with
  | false =>
    -- Without a tag at the root there is none below.
    simp only [hroot, Bool.not_false, if_true] at hok ⊢
    by_cases hj : index < 64 ^ height
    · rw [if_pos hj]
      cases htag : tagAt t height rnode false index with
      | false => rfl
      | true => exact absurd ((hok.iff_exists hinv.wf).mpr ⟨index, htag⟩) (by decide)
    rw [if_neg hj]
  | true => ?_
  simp only [hroot, Bool.not_true, Bool.false_eq_true, if_false] at hok ⊢
  match height, rnode with
  | height, .null => simp
  | 0, .item p =>
    by_cases hzero : index = 0
    · subst hzero
      rfl
    simp [hzero]
  | _ + 1, .item _ => exact absurd hinv.wf id
  | 0, .node _ _ _ _ => exact absurd hinv.wf id
  | h + 1, .node height count slots tags =>
    have hheight : height = h + 1 := hinv.wf.1
    subst hheight
    have hgt := hinv.gt_iff hindex
    simp only [hgt]
    by_cases hlt : index < 64 ^ (h + 1)
    · rw [if_neg (not_not_intro hlt), if_pos hlt]
      exact tag_get_at_eq hinv.wf hok
    rw [if_pos hlt, if_neg hlt]

end tags

/-! ## Deleting -/

/-- Clearing the tags of an item, one after the other. -/
theorem clear_tags_spec (hindex : index < 2 ^ 32) {tags : List (Fin 2)} {root : Root}
    (hinv : Inv root) (hpos : root.height ≠ 0) (hfits : index < 64 ^ root.height) :
    ∃ root', clear_tags index tags root = some root' ∧ Inv root' ∧
      (∀ j, item root' j = item root j) ∧ root'.height = root.height ∧
      ∀ t j, tagged root' t j = (tagged root t j && !decide (t ∈ tags ∧ j = index)) := by
  induction tags generalizing root with
  | nil =>
    refine ⟨root, rfl, hinv, fun _ => rfl, rfl, ?_⟩
    intro t j
    simp
  | cons tag rest ih => ?_
  have hbit : tag_get_at tag index root.height root.rnode = some (tagged root tag index) := by
    obtain ⟨h, hh⟩ := Nat.exists_eq_succ_of_ne_zero hpos
    have hwf := hinv.wf
    have hok := hinv.ok tag
    unfold tagged
    rw [if_pos hfits]
    rw [hh] at hwf hok ⊢
    exact tag_get_at_eq hwf hok
  unfold clear_tags
  rw [hbit]
  cases htag : tagged root tag index with
  | false =>
    obtain ⟨root', heq, hinv', hitems, hheight, htags⟩ := ih hinv hpos hfits
    refine ⟨root', heq, hinv', hitems, hheight, ?_⟩
    intro t j
    rw [htags t j]
    by_cases hthis : t = tag ∧ j = index
    · rw [hthis.1, hthis.2, htag]
      rfl
    have hsame : (t ∈ rest ∧ j = index) ↔ (t ∈ tag :: rest ∧ j = index) := by
      rw [mem_cons]
      tauto
    simp [hsame]
  | true => ?_
  obtain ⟨root₁, hclear, hinv₁, hitems₁, hheight₁, htags₁⟩ :=
    radix_tree_tag_clear_spec hinv hindex tag
  obtain ⟨root', heq, hinv', hitems, hheight, htags⟩ := ih hinv₁ (by rw [hheight₁]; exact hpos)
    (by rw [hheight₁]; exact hfits)
  simp only [hclear]
  refine ⟨root', heq, hinv', fun j => (hitems j).trans (hitems₁ j), hheight.trans hheight₁, ?_⟩
  intro t j
  have hsplit : (t ∈ tag :: rest ∧ j = index) ↔
      (t = tag ∧ j = index) ∨ (t ∈ rest ∧ j = index) := by
    rw [mem_cons]
    tauto
  rw [htags t j, htags₁ t j]
  simp only [hsplit, Bool.decide_or, Bool.not_or, Bool.and_assoc]

/-- **What `radix_tree_delete` does.** -/
structure DeleteSpec (root : Root) (index : Nat) (root' : Root) (frees : List Slot) : Prop where
  inv : Inv root'
  items : ∀ j, item root' j = if j = index then none else item root j
  tags : ∀ t j, tagged root' t j = (tagged root t j && !decide (j = index))
  freed : ∀ n ∈ frees, ClearAbove n

variable {root root₁ root' : Root} {index : Nat} {rnode : Slot} {l : Label} {m : Nat → Option Nat}

theorem tagged_of_item {t : Fin 2} {j : Nat} (hnone : item root j = none) :
    tagged root t j = false := by
  unfold item at hnone
  unfold tagged
  by_cases hj : j < 64 ^ root.height
  · rw [if_pos hj] at hnone ⊢
    cases htag : tagAt t root.height root.rnode (root.tags t) j with
    | false => rfl
    | true => exact absurd hnone (get_of_tagAt htag)
  rw [if_neg hj]

theorem DeleteSpec.of_none (hinv : Inv root)
    (hnone : item root index = none) : DeleteSpec root index root [] := by
  refine ⟨hinv, ?_, ?_, fun n hn => absurd hn not_mem_nil⟩
  · intro j
    by_cases hj : j = index
    · rw [if_pos hj, hj, hnone]
    · rw [if_neg hj]
  intro t j
  by_cases hj : j = index
  · rw [hj, tagged_of_item hnone]
    rfl
  simp [hj]

/-- What is left in a tree without nodes. -/
theorem DeleteSpec.of_empty (hlast : ∀ j, j ≠ index → item root j = none)
    (hfreed : ∀ n ∈ frees, ClearAbove n) :
    DeleteSpec root index INIT_RADIX_TREE frees := by
  refine ⟨Inv.init, ?_, ?_, hfreed⟩
  · intro j
    rw [item_init]
    by_cases hj : j = index
    · rw [if_pos hj]
    · rw [if_neg hj, hlast j hj]
  intro t j
  rw [tagged_init]
  by_cases hj : j = index
  · simp [hj]
  rw [tagged_of_item (hlast j hj)]
  rfl

/-- The item is taken out of a tree in which it has no tags any more. -/
theorem DeleteSpec.of_unlinks (hinv : Inv root) (hfits : index < 64 ^ root.height)
    (hclear : ∀ t, tagged root t index = false)
    (hun : Unlinks index root.height root.tags root.rnode rnode frees) :
    DeleteSpec root index { root with rnode := rnode } frees := by
  refine ⟨⟨hinv.height, hun.wf, hun.ok⟩, ?_, ?_, hun.freed⟩
  · intro j
    unfold item
    by_cases hj : j < 64 ^ root.height
    · rw [if_pos hj, if_pos hj, hun.items j]
      simp [same_of_lt hj hfits]
    rw [if_neg hj, if_neg hj, ite_self]
  intro t j
  have hsame : tagged { root with rnode := rnode } t j = tagged root t j := by
    unfold tagged
    simp [hun.bit t j]
  rw [hsame]
  by_cases hj : j = index
  · rw [hj, hclear t]
    rfl
  simp [hj]

/-- The tree is made less high afterwards. -/
theorem DeleteSpec.of_shrinks {frees' : List Slot} (hdel : DeleteSpec root index root₁ frees)
    (hsh : Shrinks root₁.height root₁.tags root₁.rnode height rnode frees') :
    DeleteSpec root index { root₁ with height := height, rnode := rnode } (frees ++ frees') := by
  refine ⟨⟨hsh.le.trans hdel.inv.height, hsh.wf, hsh.ok⟩, ?_, ?_, ?_⟩
  · intro j
    rw [← hdel.items j]
    exact hsh.items j
  · intro t j
    rw [← hdel.tags t j]
    exact hsh.bit t j
  intro n hn
  rcases mem_append.mp hn with hold | hnew
  · exact hdel.freed n hold
  · exact hsh.freed n hnew

/-- The tags of the item are cleared before. -/
theorem DeleteSpec.of_cleared (hitems : ∀ j, item root₁ j = item root j)
    (htags : ∀ t j, tagged root₁ t j = (tagged root t j && !decide (j = index)))
    (hdel : DeleteSpec root₁ index root' frees) : DeleteSpec root index root' frees := by
  refine ⟨hdel.inv, ?_, ?_, hdel.freed⟩
  · intro j
    rw [hdel.items j, hitems j]
  intro t j
  rw [hdel.tags t j, htags t j, Bool.and_assoc, Bool.and_self]

theorem radix_tree_delete_spec (hinv : Inv root) (hindex : index < 2 ^ 32) :
    ∃ root' frees, radix_tree_delete root index = some (item root index, root', frees) ∧
      DeleteSpec root index root' frees := by
  have hgt := hinv.gt_iff hindex
  unfold radix_tree_delete
  by_cases hfits : index < 64 ^ root.height
  · have hitem : item root index = get root.height root.rnode index := if_pos hfits
    rw [if_neg (fun hlarge => hgt.mp hlarge hfits)]
    by_cases hzero : root.height = 0
    · have hfind := find_at_eq hinv.wf index
      rw [hzero] at hfind hitem hfits
      rw [if_pos hzero, hfind, hitem]
      obtain ⟨height, tags, rnode⟩ := root
      obtain rfl : height = 0 := hzero
      refine ⟨INIT_RADIX_TREE, [], rfl, .of_empty ?_ fun n hn => absurd hn not_mem_nil⟩
      intro j hj
      refine if_neg ?_
      rw [Nat.pow_zero] at hfits ⊢
      omega
    rw [if_neg hzero, find_at_eq hinv.wf index, ← hitem]
    cases hget : item root index with
    | none => exact ⟨root, [], rfl, .of_none hinv hget⟩
    | some p => ?_
    obtain ⟨root₁, heq, hinv₁, hitems, hheight, htags⟩ := @clear_tags_spec _ hindex [0, 1]
      _ hinv hzero hfits
    have hall : ∀ t : Fin 2, t ∈ [0, 1] := by decide
    simp only [hall, true_and] at htags
    have hfits₁ : index < 64 ^ root₁.height := by
      rw [hheight]
      exact hfits
    have hclear : ∀ t, tagged root₁ t index = false := by
      intro t
      rw [htags t index]
      simp
    have hget₁ : get root₁.height root₁.rnode index ≠ none := by
      rw [show get root₁.height root₁.rnode index = item root₁ index from
        (if_pos hfits₁).symm, hitems, hget]
      exact some_ne_none p
    obtain ⟨rnode, reached, frees, hunlink, hun⟩ := unlink_at_spec hinv₁.wf hinv₁.ok hget₁
      (fun t => (if_pos hfits₁).symm.trans (hclear t))
    have hdel := (DeleteSpec.of_unlinks hinv₁ hfits₁ hclear hun).of_cleared hitems htags
    simp only [heq, hunlink]
    cases hnull : rnode.isNull with
    | true =>
      obtain rfl := Slot.isNull_iff.mp hnull
      refine ⟨INIT_RADIX_TREE, frees, rfl, .of_empty ?_ hun.freed⟩
      intro j hj
      have hafter := hdel.items j
      rw [if_neg hj] at hafter
      rw [← hafter]
      simp [item]
    | false => ?_
    cases reached with
    | false =>
      refine ⟨{ root₁ with rnode := rnode }, frees, ?_, hdel⟩
      cases rnode <;> first | rfl | cases hnull
    | true => ?_
    obtain ⟨height, rnode', frees', hshrink, hsh⟩ := shrink_loop_spec hun.wf hun.ok hnull
    refine ⟨_, frees ++ frees', ?_, hdel.of_shrinks hsh⟩
    have hroot : radix_tree_shrink { root₁ with rnode := rnode } =
        some ({ root₁ with height := height, rnode := rnode' }, frees') := by
      unfold radix_tree_shrink
      rw [hshrink]
    cases rnode with
    | null => cases hnull
    | item q =>
      simp [hroot]
    | node _ _ _ _ =>
      simp [hroot]
  have hnone : item root index = none := if_neg hfits
  rw [if_pos (hgt.mpr hfits), hnone]
  exact ⟨root, [], rfl, .of_none hinv hnone⟩

/-! ## The system

A run is a list of calls with what they return and the nodes they free. -/

inductive Call where
  | insert (index item : Nat) (allocs : List Bool)
  | delete (index : Nat)
  | tag_set (index : Nat) (tag : Fin 2)
  | tag_clear (index : Nat) (tag : Fin 2)

inductive Ret where
  | error (e : Int)
  | item (p : Option Nat)
deriving DecidableEq

structure Label where
  call : Call
  ret : Ret
  frees : List Slot

/-- The call; `none` if a `BUG_ON` fires. -/
def Call.run (root : Root) : Call → Option (Ret × Root × List Slot)
  | .insert index item allocs =>
    (radix_tree_insert root index item allocs).map fun (ret, root) => (.error ret, root, [])
  | .delete index => (radix_tree_delete root index).map fun (ret, root, frees) =>
    (.item ret, root, frees)
  | .tag_set index tag => (radix_tree_tag_set root index tag).map fun (ret, root) =>
    (.item ret, root, [])
  | .tag_clear index tag => (radix_tree_tag_clear root index tag).map fun (ret, root) =>
    (.item ret, root, [])

/-- Items are pointers with the lowest bit clear and not NULL; tags are set on
items that are present. -/
def Call.Allowed (root : Root) : Call → Prop
  | .insert index item _ => index < 2 ^ 32 ∧ item ≠ 0 ∧ item % 2 = 0
  | .delete index => index < 2 ^ 32
  | .tag_set index _ => index < 2 ^ 32 ∧ radix_tree_lookup root index ≠ some none
  | .tag_clear index _ => index < 2 ^ 32

instance (root : Root) (call : Call) : Decidable (call.Allowed root) := by
  cases call <;> unfold Call.Allowed <;> infer_instance

def radix : System Root Label where
  init := fun root => root = INIT_RADIX_TREE
  step := fun root l root' =>
    l.call.Allowed root ∧ l.call.run root = some (l.ret, root', l.frees)

/-- The partial map that the tree is to be. An insertion needs eleven nodes at most. -/
def partialMap : System (Nat → Option Nat) Label where
  init := fun m => m = fun _ => none
  step := fun m l m' =>
    match l.call with
    | .insert index p allocs =>
      m index = none ∧ l.ret = .error 0 ∧ m' = Function.update m index (some p) ∨
      m index = none ∧ l.ret = .error (-ENOMEM) ∧ ¬Granted 11 allocs ∧ m' = m ∨
      m index ≠ none ∧ l.ret = .error (-EEXIST) ∧ m' = m
    | .delete index => l.ret = .item (m index) ∧ m' = Function.update m index none
    | .tag_set index _ | .tag_clear index _ => l.ret = .item (m index) ∧ m' = m

/-- What each call does to the items and their tags. -/
inductive Effect (root root' : Root) : Call → Ret → List Slot → Prop
  | insert {index p : Nat} {allocs : List Bool} {ret : Int} :
      InsertSpec root index p (Granted (needed root index) allocs) ret root' →
      Effect root root' (.insert index p allocs) (.error ret) []
  | delete {index : Nat} {frees : List Slot} :
      DeleteSpec root index root' frees →
      Effect root root' (.delete index) (.item (item root index)) frees
  | tag_set {index : Nat} {tag : Fin 2} : item root index ≠ none → Inv root' →
      (∀ j, item root' j = item root j) →
      (∀ t j, tagged root' t j = (tagged root t j || decide (t = tag ∧ j = index))) →
      Effect root root' (.tag_set index tag) (.item (item root index)) []
  | tag_clear {index : Nat} {tag : Fin 2} : Inv root' →
      (∀ j, item root' j = item root j) →
      (∀ t j, tagged root' t j = (tagged root t j && !decide (t = tag ∧ j = index))) →
      Effect root root' (.tag_clear index tag) (.item (item root index)) []

/-- **Every call returns**, and has its effect. -/
theorem Call.run_spec (hinv : Inv root) (hcall : call.Allowed root) :
    ∃ ret root' frees, call.run root = some (ret, root', frees) ∧
      Effect root root' call ret frees := by
  match call with
  | .insert index p allocs =>
    obtain ⟨hindex, _, hp⟩ := hcall
    obtain ⟨ret, root', heq, hspec⟩ := @radix_tree_insert_spec allocs _ _ _ hinv hindex hp
    exact ⟨.error ret, root', [], by simp [Call.run, heq], .insert hspec⟩
  | .delete index =>
    obtain ⟨root', frees, heq, hspec⟩ := radix_tree_delete_spec hinv hcall
    exact ⟨_, root', frees, by simp [Call.run, heq], .delete hspec⟩
  | .tag_set index tag =>
    obtain ⟨hindex, hpresent⟩ := hcall
    rw [radix_tree_lookup_eq hinv hindex] at hpresent
    have hne : item root index ≠ none := fun hnone => hpresent (congrArg some hnone)
    obtain ⟨p, hp⟩ := ne_none_iff_exists'.mp hne
    obtain ⟨root', heq, hinv', hitems, htags⟩ := radix_tree_tag_set_spec hinv hindex tag hp
    refine ⟨.item (item root index), root', [], ?_, .tag_set hne hinv' hitems htags⟩
    simp [Call.run, heq, hp]
  | .tag_clear index tag =>
    obtain ⟨root', heq, hinv', hitems, _, htags⟩ := radix_tree_tag_clear_spec hinv hcall tag
    exact ⟨_, root', [], by simp [Call.run, heq], .tag_clear hinv' hitems htags⟩

theorem radix_step (hinv : Inv root)
    (hstep : radix.step root l root') : Effect root root' l.call l.ret l.frees := by
  obtain ⟨hcall, hrun⟩ := hstep
  obtain ⟨ret, root₁, frees, heq, heffect⟩ := Call.run_spec hinv hcall
  rw [hrun] at heq
  cases heq
  exact heffect

theorem Effect.inv {ret : Ret} (heffect : Effect root root' call ret frees) : Inv root' := by
  cases heffect with
  | insert hspec => exact hspec.inv
  | delete hspec => exact hspec.inv
  | tag_set _ hinv => exact hinv
  | tag_clear hinv => exact hinv

/-- The map that a tree stands for. -/
structure Implements (root : Root) (m : Nat → Option Nat) : Prop where
  inv : Inv root
  items : ∀ j, item root j = m j
  small : ∀ j, 2 ^ 32 ≤ j → m j = none

theorem Implements.init : Implements INIT_RADIX_TREE (fun _ => none) :=
  ⟨Inv.init, item_init, fun _ _ => rfl⟩

theorem Implements.update (himp : Implements root m) (hindex : index < 2 ^ 32) {v : Option Nat}
    (hinv : Inv root') (hitems : ∀ j, item root' j = if j = index then v else item root j) :
    Implements root' (update m index v) := by
  refine ⟨hinv, ?_, ?_⟩
  · intro j
    rw [hitems j, himp.items j, update_apply]
  intro j hj
  rw [update_of_ne (by omega)]
  exact himp.small j hj

/-- **One step of the tree is one step of the map.** -/
theorem Implements.step (himp : Implements root m) (hstep : radix.step root l root') :
    ∃ m', partialMap.step m l m' ∧ Implements root' m' := by
  have hallowed := hstep.1
  have heffect := radix_step himp.inv hstep
  obtain ⟨call, ret, frees⟩ := l
  cases heffect with
  | @insert index p allocs ret hspec =>
    have hindex : index < 2 ^ 32 := hallowed.1
    by_cases hfree : m index = none
    · rcases hspec.free ((himp.items index).trans hfree) with ⟨rfl, _⟩ | ⟨rfl, hnot⟩
      · refine ⟨_, .inl ⟨hfree, rfl, rfl⟩, himp.update hindex hspec.inv fun j => ?_⟩
        rw [hspec.items j]
        simp
      have hmany : ¬Granted 11 allocs := fun hgr => hnot (hgr.mono (needed_le himp.inv hindex))
      refine ⟨m, .inr (.inl ⟨hfree, rfl, hmany, rfl⟩), hspec.inv, fun j => ?_, himp.small⟩
      rw [hspec.items j, if_neg (fun hboth => absurd hboth.1 (by decide)), himp.items j]
    obtain rfl := hspec.taken (fun hnone => hfree ((himp.items index).symm.trans hnone))
    refine ⟨m, .inr (.inr ⟨hfree, rfl, rfl⟩), hspec.inv, fun j => ?_, himp.small⟩
    rw [hspec.items j, if_neg (fun hboth => absurd hboth.1 (by decide)), himp.items j]
  | @delete index _ hspec =>
    exact ⟨_, ⟨by rw [himp.items], rfl⟩, himp.update hallowed hspec.inv hspec.items⟩
  | tag_set _ hinv hitems | tag_clear hinv hitems =>
    exact ⟨m, ⟨by rw [himp.items], rfl⟩, hinv, fun j => (hitems j).trans (himp.items j), himp.small⟩

theorem Implements.finite (himp : Implements root m) :
    {index | m index ≠ none}.Finite := by
  refine (Set.finite_Iio (2 ^ 32)).subset ?_
  intro index hindex
  by_contra hge
  exact hindex (himp.small index (Nat.le_of_not_lt hge))

/-- **The tree is a finite partial map.** Every run of inserts and deletes, with
tags set and cleared in between and with allocations that fail, is a run of
the map with the same return values; looking up finds what is in the map;
and no call that may come next meets a `BUG_ON`. -/
theorem radix_tree_refines_map {root : Root} {ls : List Label}
    (hrun : radix.Steps INIT_RADIX_TREE ls root) :
    (∃ m, partialMap.Steps (fun _ => none) ls m ∧ {index | m index ≠ none}.Finite ∧
      ∀ index, index < 2 ^ 32 → radix_tree_lookup root index = some (m index)) ∧
    ∀ call : Call, call.Allowed root → (call.run root).isSome = true := by
  obtain ⟨m, hsteps, himp⟩ := hrun.simulates
    (fun _ _ _ _ himp hstep => Implements.step himp hstep) Implements.init
  refine ⟨⟨m, hsteps, himp.finite, ?_⟩, ?_⟩
  · intro index hindex
    rw [radix_tree_lookup_eq himp.inv hindex, himp.items]
  intro call hcall
  obtain ⟨ret, root', frees, heq, _⟩ := Call.run_spec himp.inv hcall
  rw [heq]
  rfl

/-- The tree after a call, and what it returned. -/
def Call.after (root : Root) (call : Call) : Root :=
  match call.run root with
  | none => root
  | some (_, root', _) => root'

def Call.label (root : Root) (call : Call) : Label :=
  match call.run root with
  | none => ⟨call, .error 0, []⟩
  | some (ret, _, frees) => ⟨call, ret, frees⟩

theorem step_after (hcall : call.Allowed root) (hrun : (call.run root).isSome = true) :
    radix.step root (call.label root) (call.after root) := by
  obtain ⟨⟨ret, root', frees⟩, heq⟩ := isSome_iff_exists.mp hrun
  unfold Call.label Call.after
  rw [heq]
  exact ⟨hcall, heq⟩

/-- The labels of some calls one after the other, and the tree at the end. -/
def play : Root → List Call → List Label × Root
  | root, [] => ([], root)
  | root, call :: calls =>
    let (ls, root') := play (call.after root) calls
    (call.label root :: ls, root')

/-- Each of the calls is allowed and returns. -/
def playable : Root → List Call → Bool
  | _, [] => true
  | root, call :: calls =>
    decide (call.Allowed root) && (call.run root).isSome && playable (call.after root) calls

theorem steps_of_play {calls : List Call} (hplay : playable root calls = true) :
    radix.Steps root (play root calls).1 (play root calls).2 := by
  induction calls generalizing root with
  | nil => exact .nil root
  | cons call calls ih =>
    rw [playable, Bool.and_eq_true, Bool.and_eq_true, decide_eq_true_eq] at hplay
    exact .cons (step_after hplay.1.1 hplay.1.2) (ih hplay.2)

/-- Three items, of which the second makes the tree higher, with two requests for
a node refused. -/
def threeItems : List Call :=
  [.insert 0 4 [], .insert 70 8 [true, false], .insert 70 8 [true, true, true],
    .insert 70 16 [], .insert 5000 12 [false], .insert 5000 12 [true, true, true], .delete 70]

theorem radix_tree_refines_map_threeItems :
    ((play INIT_RADIX_TREE threeItems).1.map Label.ret =
      [.error 0, .error (-12), .error 0, .error (-17), .error (-12), .error 0,
        .item (some 8)]) ∧
    (∃ m, partialMap.Steps (fun _ => none) (play INIT_RADIX_TREE threeItems).1 m ∧
      m 70 = none ∧ m 5000 = some 12) := by
  have hplay : playable INIT_RADIX_TREE threeItems = true := by decide +kernel
  obtain ⟨⟨m, hsteps, _, hlookup⟩, _⟩ := radix_tree_refines_map (steps_of_play hplay)
  have h70 := hlookup 70 (by decide)
  have h5000 := hlookup 5000 (by decide)
  exact ⟨by decide +kernel, m, hsteps, (Option.some.inj h70).symm, (Option.some.inj h5000).symm⟩

/-- A pointer whose lowest bit is set is not NULL, but `radix_tree_insert` does
not take it. -/
theorem radix_tree_insert_odd :
    radix.Reachable INIT_RADIX_TREE ∧ (1 : Nat) ≠ 0 ∧
      (Call.insert 0 1 []).run INIT_RADIX_TREE = none := by
  refine ⟨.of_init rfl, by decide, rfl⟩

end Nubernel.Radix
