import Nubernel.Lib.Digits
import Nubernel.Framework.Tasks
import Nubernel.Radix.Tree

/-! # radix-tree: the way down to an index

What the recursive parts of the operations of `Nubernel.Radix.Tree` do to a
subtree: to the items in it (`get`), to the tags of these items (`tagAt`),
and to what holds of every subtree (`WF`, `TagOK`).

A subtree of height `h` looks at the lowest `h` digits of an index only. So
the statements are about all indices, and an operation on `index` changes
what is found at those that agree with it in these digits.
-/

open Function List

namespace Nubernel.Radix

/-! ## Subtrees -/

/-- The item at an index. -/
def get : Nat → Slot → Nat → Option Nat
  | 0, .item p, _ => some p
  | h + 1, .node _ _ slots _, index => get h (slots (offset index h)) index
  | _, _, _ => none

/-- The number of slots in use. -/
def occupied (slots : Fin 64 → Slot) : Nat := Tasks.count (fun s => !s.isNull) slots

/-- A subtree of height `h`. -/
def WF : Nat → Slot → Prop
  | _, .null => True
  | 0, .item p => p % 2 = 0
  | h + 1, .node height count slots _ =>
    height = h + 1 ∧ count = occupied slots ∧ ∀ o, WF h (slots o)
  | _, _ => False

/-- The tag of the item at an index, where `b` is the bit of the subtree in the
node above or in the root. -/
def tagAt (t : Fin 2) : Nat → Slot → Bool → Nat → Bool
  | 0, .item _, b, _ => b
  | h + 1, .node _ _ slots tags, _, index =>
    tagAt t h (slots (offset index h)) (tags t (offset index h)) index
  | _, _, _, _ => false

/-- The bit `b` of a subtree is set if one of the bits in its top node is, and so
on below; an empty slot has no tag. -/
def TagOK (t : Fin 2) : Nat → Slot → Bool → Prop
  | _, .null, b => b = false
  | h + 1, .node _ _ slots tags, b =>
    (b = true ↔ ∃ o, tags t o = true) ∧ ∀ o, TagOK t h (slots o) (tags t o)
  | _, _, _ => True

/-- Two indices agree in the digits that a subtree of height `h` looks at. -/
def Same (h i j : Nat) : Prop := i % 64 ^ h = j % 64 ^ h

instance (h i j : Nat) : Decidable (Same h i j) := by
  unfold Same
  infer_instance

theorem offset_val (index h : Nat) : (offset index h).val = Digits.digit 64 h index := by
  show (index >>> (h * 6)) &&& 63 = index / 64 ^ h % 64
  rw [show 63 = 2 ^ 6 - 1 by decide, Nat.and_two_pow_sub_one_eq_mod, Nat.shiftRight_eq_div_pow,
    Nat.mul_comm, Nat.pow_mul]

theorem same_succ (h i j : Nat) :
    Same (h + 1) i j ↔ offset i h = offset j h ∧ Same h i j := by
  unfold Same
  rw [Digits.mod_pow_succ_eq_iff (by decide), Fin.ext_iff, offset_val, offset_val]

theorem same_of_lt {h i j : Nat} (hi : i < 64 ^ h) (hj : j < 64 ^ h) : Same h i j ↔ i = j := by
  unfold Same
  rw [Nat.mod_eq_of_lt hi, Nat.mod_eq_of_lt hj]

theorem same_zero (i j : Nat) : Same 0 i j := by
  unfold Same
  simp [Nat.mod_one]

section basics
variable {h : Nat} {s : Slot} {slots : Fin 64 → Slot} {tags : Fin 2 → Fin 64 → Bool}
variable {height count : Nat} {t : Fin 2} {b : Bool}

@[simp] theorem get_null (index : Nat) : get h .null index = none := by
  cases h <;> rfl

@[simp] theorem tagAt_null (index : Nat) : tagAt t h .null b index = false := by
  cases h <;> rfl

@[simp] theorem WF_null : WF h .null := by
  cases h <;> trivial

theorem TagOK_null : TagOK t h .null b ↔ b = false := by
  cases h <;> exact Iff.rfl

theorem Slot.isNull_iff : s.isNull = true ↔ s = .null := by
  cases s <;> simp [Slot.isNull]

theorem get_zeroed (index : Nat) : get (h + 1) (zeroed height) index = none := by
  exact get_null index

theorem tagAt_zeroed (index : Nat) : tagAt t (h + 1) (zeroed height) b index = false := by
  exact tagAt_null index

theorem WF_zeroed : WF (h + 1) (zeroed (h + 1)) := by
  refine ⟨rfl, ?_, fun _ => WF_null⟩
  show 0 = Tasks.count _ _
  simp [Tasks.count, Slot.isNull]

theorem TagOK_zeroed : TagOK t (h + 1) (zeroed height) false := by
  refine ⟨?_, fun _ => TagOK_null.mpr rfl⟩
  simp

/-- A subtree of a height above 0 is empty or a node. -/
theorem WF.cases (hwf : WF (h + 1) s) :
    s = .null ∨ ∃ count slots tags, s = .node (h + 1) count slots tags ∧
      count = occupied slots ∧ ∀ o, WF h (slots o) := by
  match s with
  | .null => exact .inl rfl
  | .item _ => exact absurd hwf id
  | .node height count slots tags =>
    obtain ⟨hheight, hcount, hslots⟩ := hwf
    subst hheight
    exact .inr ⟨count, slots, tags, rfl, hcount, hslots⟩

theorem WF.cases_zero (hwf : WF 0 s) : s = .null ∨ ∃ p, s = .item p ∧ p % 2 = 0 := by
  match s with
  | .null => exact .inl rfl
  | .item p => exact .inr ⟨p, rfl, hwf⟩
  | .node _ _ _ _ => exact absurd hwf id

theorem find_at_eq (hwf : WF h s) (index : Nat) : find_at index h s = some (get h s index) := by
  induction h generalizing s with
  | zero =>
    rcases hwf.cases_zero with rfl | ⟨p, rfl, _⟩ <;> rfl
  | succ h ih =>
    rcases hwf.cases with rfl | ⟨count, slots, tags, rfl, _, hslots⟩
    · rfl
    · exact ih (hslots _)

variable {i j index : Nat}

/-- What is found depends on the digits below only. -/
theorem tagAt_congr (hsame : Same h i j) : tagAt t h s b i = tagAt t h s b j := by
  induction h generalizing s b with
  | zero => cases s <;> rfl
  | succ h ih => ?_
  obtain ⟨hoff, hlow⟩ := (same_succ h i j).mp hsame
  match s with
  | .null => rfl
  | .item _ => rfl
  | .node _ _ slots tags =>
    show tagAt t h (slots (offset i h)) (tags t (offset i h)) i =
      tagAt t h (slots (offset j h)) (tags t (offset j h)) j
    rw [hoff]
    exact ih hlow

theorem get_even (hwf : WF h s) {p : Nat} (hget : get h s index = some p) : p % 2 = 0 := by
  induction h generalizing s with
  | zero =>
    rcases hwf.cases_zero with rfl | ⟨q, rfl, hq⟩
    · cases hget
    cases hget
    exact hq
  | succ h ih =>
    rcases hwf.cases with rfl | ⟨_, slots, _, rfl, _, hslots⟩
    · cases hget
    · exact ih (hslots _) hget

/-- Only items have tags. -/
theorem get_of_tagAt (htag : tagAt t h s b index = true) :
    get h s index ≠ none := by
  induction h generalizing s b with
  | zero =>
    match s with
    | .null => cases htag
    | .item p => exact fun hget => by cases hget
    | .node _ _ _ _ => cases htag
  | succ h ih => ?_
  match s with
  | .null => cases htag
  | .item _ => cases htag
  | .node _ _ slots tags => exact ih htag

/-- The bit of a subtree is set exactly if some item in it is tagged. -/
theorem TagOK.iff_exists (hwf : WF h s) (hok : TagOK t h s b) :
    b = true ↔ ∃ index, tagAt t h s b index = true := by
  induction h generalizing s b with
  | zero =>
    rcases hwf.cases_zero with rfl | ⟨p, rfl, _⟩
    · rw [TagOK_null.mp hok]
      simp
    exact ⟨fun hb => ⟨0, hb⟩, fun ⟨_, hb⟩ => hb⟩
  | succ h ih => ?_
  rcases hwf.cases with rfl | ⟨_, slots, tags, rfl, _, hslots⟩
  · rw [TagOK_null.mp hok]
    simp
  obtain ⟨hbit, hbelow⟩ := hok
  rw [hbit]
  constructor
  · rintro ⟨o, ho⟩
    obtain ⟨index, hindex⟩ := (ih (hslots o) (hbelow o)).mp ho
    -- The index with the digit `o` on top is found through slot `o`.
    let j := Digits.put 64 h o index
    have hoff : offset j h = o := by
      rw [Fin.ext_iff, offset_val]
      exact Digits.digit_put (by decide) o.isLt index
    have hsame : Same h j index := Digits.put_mod 64 h o index
    refine ⟨j, ?_⟩
    show tagAt t h (slots (offset j h)) (tags t (offset j h)) j = true
    rw [hoff, tagAt_congr hsame]
    exact hindex
  rintro ⟨index, hindex⟩
  exact ⟨offset index h, (ih (hslots _) (hbelow _)).mpr ⟨index, hindex⟩⟩

end basics

/-! ### A node with another child -/

section children
variable {h : Nat} {slots : Fin 64 → Slot} {tags : Fin 2 → Fin 64 → Bool} {child : Slot}
variable {height count index : Nat} {t : Fin 2} {b : Bool}

theorem get_setSlot (j : Nat) :
    get (h + 1) (.node height count (setSlot slots (offset index h) child) tags) j =
      if offset j h = offset index h then get h child j else get h (slots (offset j h)) j := by
  show get h (update slots (offset index h) child (offset j h)) j = _
  by_cases hoff : offset j h = offset index h
  · rw [if_pos hoff, hoff, update_self]
  · rw [if_neg hoff, update_of_ne hoff]

theorem tagAt_setSlot (j : Nat) :
    tagAt t (h + 1) (.node height count (setSlot slots (offset index h) child) tags) b j =
      if offset j h = offset index h then tagAt t h child (tags t (offset index h)) j
      else tagAt t h (slots (offset j h)) (tags t (offset j h)) j := by
  show tagAt t h (update slots (offset index h) child (offset j h)) (tags t (offset j h)) j = _
  by_cases hoff : offset j h = offset index h
  · rw [if_pos hoff, hoff, update_self]
  · rw [if_neg hoff, update_of_ne hoff]

variable {count' j : Nat} {tags' : Fin 2 → Fin 64 → Bool}

/-- What the new child has at an index decides for the node. -/
theorem get_setSlot_if {P Q : Prop} [Decidable P] [Decidable Q] {v : Option Nat}
    (hiff : Q ↔ offset j h = offset index h ∧ P)
    (hchild : get h child j = if P then v else get h (slots (offset index h)) j) :
    get (h + 1) (.node height count' (setSlot slots (offset index h) child) tags') j =
      if Q then v else get (h + 1) (.node height count slots tags) j := by
  rw [get_setSlot, hchild]
  by_cases hoff : offset j h = offset index h
  · rw [if_pos hoff, ← hoff]
    by_cases hP : P
    · rw [if_pos hP, if_pos (hiff.mpr ⟨hoff, hP⟩)]
    rw [if_neg hP, if_neg (fun hQ => hP (hiff.mp hQ).2)]
    rfl
  rw [if_neg hoff, if_neg (fun hQ => hoff (hiff.mp hQ).1)]
  rfl

theorem tagAt_setSlot_same (htags : tags' t = tags t)
    (hchild : tagAt t h child (tags t (offset index h)) j =
      tagAt t h (slots (offset index h)) (tags t (offset index h)) j) :
    tagAt t (h + 1) (.node height count' (setSlot slots (offset index h) child) tags') b j =
      tagAt t (h + 1) (.node height count slots tags) b j := by
  rw [tagAt_setSlot, htags, hchild]
  by_cases hoff : offset j h = offset index h
  · rw [if_pos hoff, ← hoff]
    rfl
  rw [if_neg hoff]
  rfl

theorem WF_setSlot (hslots : ∀ o, WF h (slots o)) (hchild : WF h child)
    (hcount : count = occupied (setSlot slots (offset index h) child)) :
    WF (h + 1) (.node (h + 1) count (setSlot slots (offset index h) child) tags) :=
  ⟨rfl, hcount, Tasks.forall_update hchild hslots⟩

/-- How the number of slots in use changes. -/
theorem occupied_setSlot (o : Fin 64) :
    occupied (setSlot slots o child) + (!(slots o).isNull).toNat =
      occupied slots + (!child.isNull).toNat :=
  Tasks.count_update _ _ _ _

theorem occupied_le : occupied slots ≤ 64 :=
  Tasks.count_le _ _

theorem occupied_eq_zero_iff : occupied slots = 0 ↔ ∀ o, slots o = .null := by
  constructor
  · intro hzero o
    by_contra hne
    have hpos : 0 < occupied slots := Tasks.count_pos_iff.mpr ⟨o, by
      rw [Bool.not_eq_true', Bool.eq_false_iff]
      exact fun hnull => hne (Slot.isNull_iff.mp hnull)⟩
    omega
  intro hnull
  unfold occupied Tasks.count
  simp [hnull, Slot.isNull]

/-- The tag bits stay right if those of the new child are the same. -/
theorem TagOK_setSlot (hok : TagOK t (h + 1) (.node height count slots tags) b)
    (hchild : TagOK t h child (tags t (offset index h))) :
    TagOK t (h + 1) (.node height count' (setSlot slots (offset index h) child) tags) b := by
  refine ⟨hok.1, ?_⟩
  intro o
  by_cases ho : o = offset index h
  · subst ho
    show TagOK t h (update slots _ child _) _
    rw [update_self]
    exact hchild
  show TagOK t h (update slots _ child _) _
  rw [update_of_ne ho]
  exact hok.2 o

end children

variable {t : Fin 2} {s : Slot}

/-- The tag bits of a slot that is empty are clear. -/
theorem TagOK.clear {h : Nat} {b : Bool} (hok : TagOK t h s b) (hwf : WF h s) (hzero : h = 0)
    {index : Nat} (hnone : get h s index = none) : b = false := by
  subst hzero
  rcases hwf.cases_zero with rfl | ⟨p, rfl, _⟩
  · exact hok
  · cases hnone

/-! ## Inserting -/

/-- What inserting does to a subtree whose bits above are `b`. -/
structure Inserts (index item h : Nat) (b : Fin 2 → Bool) (s : Slot) (ret : Int) (s' : Slot) :
    Prop where
  wf : WF h s'
  items : ∀ j, get h s' j = if ret = 0 ∧ Same h j index then some item else get h s j
  free : get h s index = none → ret = 0 ∨ ret = -ENOMEM
  taken : get h s index ≠ none → ret = -EEXIST
  grows : s.isNull = false → s'.isNull = false
  filled : ret = 0 → s'.isNull = false
  tagOK : ∀ t, TagOK t h s' (b t)
  tagged : ∀ t j, tagAt t h s' (b t) j = tagAt t h s (b t) j

section insert
variable {index item : Nat} (hitem : item % 2 = 0)

include hitem in
theorem insert_at_zero {s : Slot} {b : Fin 2 → Bool} {allocs : List Bool} (hwf : WF 0 s)
    (hok : ∀ t, TagOK t 0 s (b t)) :
    ∃ ret s', insert_at index item 0 s allocs = some (ret, s', allocs) ∧
      Inserts index item 0 b s ret s' := by
  rcases hwf.cases_zero with rfl | ⟨p, rfl, _⟩
  · have hb : ∀ t, b t = false := fun t => hok t
    refine ⟨0, .item item, rfl, ⟨hitem, ?_, fun _ => .inl rfl, fun h => absurd rfl h, ?_, ?_, ?_, ?_⟩⟩
    · intro j
      have hsame := same_zero j index
      rw [if_pos ⟨rfl, hsame⟩]
      rfl
    · intro hnull
      cases hnull
    · intro _
      rfl
    · intro t
      trivial
    intro t j
    rw [hb t]
    rfl
  have htaken : get 0 (.item p) index ≠ none := fun hget => by cases hget
  refine ⟨-EEXIST, .item p, rfl, ⟨hwf, ?_, fun hnone => absurd hnone htaken, fun _ => rfl,
    fun hnull => hnull, fun hret => absurd hret (by decide), hok, fun _ _ => rfl⟩⟩
  intro j
  rw [if_neg (fun hboth => absurd hboth.1 (by decide))]

section back
variable {h count : Nat} {slots : Fin 64 → Slot} {tags : Fin 2 → Fin 64 → Bool}
variable {b : Fin 2 → Bool} {ret : Int} {child : Slot}
variable (hcount : count = occupied slots) (hslots : ∀ o, WF h (slots o))
variable (hok : ∀ t, TagOK t (h + 1) (.node (h + 1) count slots tags) (b t))
variable (hins : Inserts index item h (fun t => tags t (offset index h)) (slots (offset index h))
  ret child)
include hcount hslots hok hins

/-- The step of the way down: the child of the node is changed, and the count of
the node follows. -/
theorem Inserts.of_child :
    Inserts index item (h + 1) b (.node (h + 1) count slots tags) ret
      (.node (h + 1)
        (if (slots (offset index h)).isNull && !child.isNull then count + 1 else count)
        (setSlot slots (offset index h) child) tags) := by
  have hget : get (h + 1) (.node (h + 1) count slots tags) index =
      get h (slots (offset index h)) index := rfl
  refine ⟨WF_setSlot hslots hins.wf ?_, ?_, ?_, ?_, fun _ => rfl, fun _ => rfl, ?_, ?_⟩
  · have hocc := @occupied_setSlot slots child (offset index h)
    have hgrows := hins.grows
    cases hnull : (slots (offset index h)).isNull <;> cases hchild : child.isNull <;>
      simp_all
  · intro j
    refine get_setSlot_if ?_ (hins.items j)
    rw [same_succ, and_left_comm]
  · rw [hget]
    exact hins.free
  · rw [hget]
    exact hins.taken
  · intro t
    exact TagOK_setSlot (hok t) (hins.tagOK t)
  intro t j
  exact tagAt_setSlot_same rfl (hins.tagged t j)

/-- The way back to a node. -/
theorem fill_slot_spec (allocs : List Bool) :
    ∃ s', fill_slot h (offset index h) (h + 1) count slots tags (some (ret, child, allocs)) =
        some (ret, s', allocs) ∧
      Inserts index item (h + 1) b (.node (h + 1) count slots tags) ret s' := by
  -- A slot in which an item is put was empty, so it has no tags.
  have hbug : ¬(h = 0 ∧ ret = 0 ∧ (tags 0 (offset index h) || tags 1 (offset index h)) = true) := by
    rintro ⟨hzero, hret, htags⟩
    have hnone : get h (slots (offset index h)) index = none := by
      by_contra hne
      rw [hins.taken hne] at hret
      exact absurd hret (by decide)
    have hclear := fun t => ((hok t).2 (offset index h)).clear (hslots _) hzero hnone
    rw [hclear 0, hclear 1] at htags
    cases htags
  refine ⟨_, ?_, Inserts.of_child hcount hslots hok hins⟩
  unfold fill_slot
  simp only
  rw [if_neg hbug]

end back

/-- Inserting into a node that has just been added. -/
theorem Inserts.of_zeroed {h : Nat} {b : Fin 2 → Bool} {ret : Int} {s' : Slot}
    (hins : Inserts index item (h + 1) b (zeroed (h + 1)) ret s') :
    Inserts index item (h + 1) b .null ret s' := by
  refine ⟨hins.wf, ?_, ?_, ?_, ?_, hins.filled, hins.tagOK, ?_⟩
  · intro j
    rw [hins.items j, get_zeroed, get_null]
  · intro _
    exact hins.free (get_zeroed index)
  · intro htaken
    exact absurd (get_null index) htaken
  · intro hnull
    cases hnull
  intro t j
  rw [hins.tagged t j, tagAt_zeroed, tagAt_null]

include hitem in
theorem insert_at_spec {h : Nat} {s : Slot} {b : Fin 2 → Bool} {allocs : List Bool}
    (hwf : WF h s) (hok : ∀ t, TagOK t h s (b t)) :
    ∃ ret s' allocs', insert_at index item h s allocs = some (ret, s', allocs') ∧
      Inserts index item h b s ret s' := by
  induction h generalizing s b allocs with
  | zero =>
    obtain ⟨ret, s', heq, hins⟩ := @insert_at_zero index _ hitem _ _ allocs hwf hok
    exact ⟨ret, s', allocs, heq, hins⟩
  | succ h ih => ?_
  rcases hwf.cases with rfl | ⟨count, slots, tags, rfl, hcount, hslots⟩
  · have hb : ∀ t, b t = false := fun t => TagOK_null.mp (hok t)
    cases halloc : radix_tree_node_alloc allocs with
    | mk ok allocs₁ =>
    unfold insert_at
    rw [halloc]
    cases ok with
    | false =>
      -- There is no memory for the node.
      refine ⟨-ENOMEM, .null, allocs₁, rfl, ⟨WF_null, ?_, fun _ => .inr rfl, ?_, fun h => h,
        fun hret => absurd hret (by decide), hok, fun _ _ => rfl⟩⟩
      · intro j
        rw [if_neg (fun hboth => absurd hboth.1 (by decide))]
      intro htaken
      exact absurd (get_null index) htaken
    | true => ?_
    have hwf₀ := WF_zeroed (h := h)
    obtain ⟨ret, child, allocs', heq, hins⟩ := @ih .null (fun _ => false) allocs₁
      WF_null (fun _ => TagOK_null.mpr rfl)
    obtain ⟨s', hfill, hins'⟩ := fill_slot_spec (b := b) hwf₀.2.1 hwf₀.2.2
      (fun t => by rw [hb t]; exact TagOK_zeroed) hins allocs'
    simp only [heq]
    exact ⟨ret, s', allocs', hfill, hins'.of_zeroed⟩
  obtain ⟨ret, child, allocs', heq, hins⟩ := @ih _ (fun t => tags t (offset index h))
    allocs (hslots (offset index h)) (fun t => (hok t).2 _)
  obtain ⟨s', hfill, hins'⟩ := fill_slot_spec (b := b) hcount hslots hok hins allocs'
  unfold insert_at
  rw [heq]
  exact ⟨ret, s', allocs', hfill, hins'⟩

end insert

/-! ## Tags -/

/-- What an operation on a tag of one index does to a subtree: the items stay,
and so do the other tags. -/
structure Retags (index h : Nat) (tag : Fin 2) (s s' : Slot) : Prop where
  wf : WF h s'
  items : ∀ j, get h s' j = get h s j
  null : s'.isNull = s.isNull
  others : ∀ t b, t ≠ tag → TagOK t h s b → TagOK t h s' b ∧
    ∀ j, tagAt t h s' b j = tagAt t h s b j

theorem Retags.refl {index h : Nat} {tag : Fin 2} (hwf : WF h s) :
    Retags index h tag s s :=
  ⟨hwf, fun _ => rfl, rfl, fun _ _ _ hok => ⟨hok, fun _ => rfl⟩⟩

section retag
variable {index h count : Nat} {tag : Fin 2} {slots : Fin 64 → Slot}
variable {tags tags' : Fin 2 → Fin 64 → Bool} {child : Slot} {b : Bool}

theorem setTag_self (o : Fin 64) (v : Bool) : setTag tags tag o v tag o = v := by
  simp [setTag]

theorem setTag_other {o o' : Fin 64} (v : Bool) (ho : o' ≠ o) :
    setTag tags tag o v tag o' = tags tag o' := by
  simp [setTag, ho]

theorem setTag_tag (o : Fin 64) (v : Bool) (ht : t ≠ tag) :
    setTag tags tag o v t = tags t := by
  simp [setTag, ht]

/-- A node whose child has other tags, and which may have other bits for this
tag itself. -/
theorem Retags.of_child (hcount : count = occupied slots) (hslots : ∀ o, WF h (slots o))
    (htags : ∀ t, t ≠ tag → tags' t = tags t)
    (hre : Retags index h tag (slots (offset index h)) child) :
    Retags index (h + 1) tag (.node (h + 1) count slots tags)
      (.node (h + 1) count (setSlot slots (offset index h) child) tags') := by
  refine ⟨WF_setSlot hslots hre.wf ?_, ?_, rfl, ?_⟩
  · have hocc := @occupied_setSlot slots child (offset index h)
    rw [hre.null] at hocc
    omega
  · intro j
    rw [get_setSlot, hre.items j]
    show _ = get h (slots (offset j h)) j
    rw [ite_eq_right_iff]
    intro hoff
    rw [hoff]
  intro t b ht hok
  obtain ⟨hchild, hat⟩ := hre.others t _ ht (hok.2 (offset index h))
  have hbits : TagOK t (h + 1) (.node (h + 1) count slots tags') b := by
    refine ⟨?_, fun o => ?_⟩
    · rw [htags t ht]
      exact hok.1
    rw [htags t ht]
    exact hok.2 o
  refine ⟨TagOK_setSlot hbits (by rw [htags t ht]; exact hchild), ?_⟩
  intro j
  exact tagAt_setSlot_same (htags t ht) (hat j)

end retag

/-- What setting a tag does to a subtree. -/
structure Sets (index h : Nat) (tag : Fin 2) (b : Bool) (s s' : Slot) : Prop
    extends Retags index h tag s s' where
  ok : TagOK tag h s' true
  bit : ∀ j, tagAt tag h s' true j = (tagAt tag h s b j || decide (Same h j index))

variable {index h i j : Nat} {tag : Fin 2} {s : Slot} {b : Bool} {tags : Fin 2 → Fin 64 → Bool}

theorem Same.offset_ne (hoff : offset i h ≠ offset j h) :
    decide (Same (h + 1) i j) = false :=
  decide_eq_false fun hs => hoff ((same_succ h i j).mp hs).1

theorem Same.decide_succ (hoff : offset i h = offset j h) :
    decide (Same (h + 1) i j) = decide (Same h i j) := by
  rw [decide_eq_decide, same_succ]
  exact ⟨fun hboth => hboth.2, fun hlow => ⟨hoff, hlow⟩⟩

variable {slots : Fin 64 → Slot} {child : Slot}

/-- The bits below stay right if a slot and its bit are changed together. -/
theorem TagOK_setTag {o₀ : Fin 64} {v : Bool} (hbelow : ∀ o, TagOK tag h (slots o) (tags tag o))
    (hchild : TagOK tag h child v) (o : Fin 64) :
    TagOK tag h (setSlot slots o₀ child o) (setTag tags tag o₀ v tag o) := by
  show TagOK tag h (update slots _ child _) _
  by_cases ho : o = o₀
  · rw [ho, setTag_self, update_self]
    exact hchild
  rw [setTag_other _ ho, update_of_ne ho]
  exact hbelow o

/-- **Setting a tag in a subtree** in which there is an item at the index. -/
theorem tag_set_at_spec (hwf : WF h s) (hok : TagOK tag h s b) {p : Nat}
    (hget : get h s index = some p) :
    ∃ s', tag_set_at tag index h s = some (some p, s') ∧ Sets index h tag b s s' := by
  induction h generalizing s b with
  | zero =>
    rcases hwf.cases_zero with rfl | ⟨q, rfl, _⟩
    · cases hget
    cases hget
    refine ⟨.item p, rfl, ⟨.refl hwf, trivial, ?_⟩⟩
    intro j
    have hsame := same_zero j index
    simp [hsame, tagAt]
  | succ h ih => ?_
  rcases hwf.cases with rfl | ⟨count, slots, tags, rfl, hcount, hslots⟩
  · cases hget
  have hnull : ¬(slots (offset index h)).isNull = true := by
    intro hnull
    have hnone : get h (slots (offset index h)) index = some p := hget
    rw [Slot.isNull_iff.mp hnull, get_null] at hnone
    cases hnone
  obtain ⟨child, heq, hset⟩ := ih (hslots (offset index h)) (hok.2 (offset index h)) hget
  refine ⟨_, ?_, ⟨@Retags.of_child _ _ _ _ _ _ (setTag tags tag (offset index h) true) _ hcount hslots
    (fun t ht => setTag_tag _ _ ht) hset.toRetags, ?_, ?_⟩⟩
  · unfold tag_set_at
    rw [if_neg hnull, heq]
  · exact ⟨⟨fun _ => ⟨offset index h, setTag_self _ _⟩, fun _ => rfl⟩, TagOK_setTag hok.2 hset.ok⟩
  intro j
  rw [tagAt_setSlot, setTag_self, hset.bit j]
  by_cases hoff : offset j h = offset index h
  · rw [if_pos hoff, Same.decide_succ hoff, ← hoff]
    rfl
  rw [if_neg hoff, setTag_other _ hoff, Same.offset_ne hoff, Bool.or_false]
  rfl

/-- What clearing a tag does to a subtree with the bit `b` above it; `go_on` says
that this bit is to be cleared as well. -/
structure Clears (index h : Nat) (tag : Fin 2) (b : Bool) (s s' : Slot) (go_on : Bool) : Prop
    extends Retags index h tag s s' where
  ok : TagOK tag h s' (b && !go_on)
  bit : ∀ j, tagAt tag h s' (b && !go_on) j = (tagAt tag h s b j && !decide (Same h j index))

theorem any_tag_set_iff :
    any_tag_set tags tag = true ↔ ∃ o, tags tag o = true := by
  unfold any_tag_set
  simp

theorem tag_clear_at_spec {index h : Nat} {tag : Fin 2} {b : Bool} (hwf : WF h s)
    (hok : TagOK tag h s b) :
    ∃ s' go_on, tag_clear_at tag index h s = some (get h s index, s', go_on) ∧
      Clears index h tag b s s' go_on := by
  induction h generalizing s b with
  | zero =>
    rcases hwf.cases_zero with rfl | ⟨q, rfl, _⟩
    · refine ⟨.null, false, rfl, ⟨.refl hwf, ?_, fun j => rfl⟩⟩
      rw [hok]
      rfl
    refine ⟨.item q, true, rfl, ⟨.refl hwf, trivial, ?_⟩⟩
    intro j
    have hsame := same_zero j index
    simp [hsame, tagAt]
  | succ h ih => ?_
  rcases hwf.cases with rfl | ⟨count, slots, tags, rfl, hcount, hslots⟩
  · refine ⟨.null, false, rfl, ⟨.refl hwf, ?_, fun j => rfl⟩⟩
    rw [hok]
    rfl
  obtain ⟨child, go_on, heq, hclr⟩ := ih (hslots (offset index h)) (hok.2 (offset index h))
  by_cases hstop : (!go_on || !tags tag (offset index h)) = true
  · -- The bit of the child stays, and so do those above.
    have hbit : (tags tag (offset index h) && !go_on) = tags tag (offset index h) := by
      cases go_on <;> cases htag : tags tag (offset index h) <;> simp_all
    have hchild := hclr.ok
    have hat := hclr.bit
    rw [hbit] at hchild
    simp only [hbit] at hat
    refine ⟨_, false, ?_, ⟨@Retags.of_child _ _ _ _ _ _ tags _ hcount hslots (fun _ _ => rfl)
      hclr.toRetags, ?_, ?_⟩⟩
    · unfold tag_clear_at
      simp only [heq]
      rw [if_pos hstop]
      rfl
    · rw [Bool.not_false, Bool.and_true]
      exact TagOK_setSlot hok hchild
    intro j
    rw [tagAt_setSlot, hat j]
    by_cases hoff : offset j h = offset index h
    · rw [if_pos hoff, Same.decide_succ hoff, ← hoff]
      rfl
    rw [if_neg hoff, Same.offset_ne hoff, Bool.not_false, Bool.and_true]
    rfl
  have hgo : go_on = true ∧ tags tag (offset index h) = true := by
    cases go_on <;> cases htag : tags tag (offset index h) <;> simp_all
  obtain ⟨rfl, htag⟩ := hgo
  have hb : b = true := hok.1.mpr ⟨_, htag⟩
  have hchild := hclr.ok
  have hat := hclr.bit
  rw [Bool.not_true, Bool.and_false] at hchild
  simp only [Bool.not_true, Bool.and_false] at hat
  refine ⟨_, !any_tag_set (setTag tags tag (offset index h) false) tag, ?_,
    ⟨@Retags.of_child _ _ _ _ _ _ (setTag tags tag (offset index h) false) _ hcount
      hslots (fun t ht => setTag_tag _ _ ht) hclr.toRetags, ?_, ?_⟩⟩
  · unfold tag_clear_at
    simp only [heq]
    rw [if_neg hstop]
    rfl
  · rw [hb, Bool.not_not, Bool.true_and]
    exact ⟨any_tag_set_iff, TagOK_setTag hok.2 hchild⟩
  intro j
  rw [tagAt_setSlot, setTag_self, hat j]
  by_cases hoff : offset j h = offset index h
  · rw [if_pos hoff, Same.decide_succ hoff, ← hoff]
    rfl
  rw [if_neg hoff, setTag_other _ hoff, Same.offset_ne hoff, Bool.not_false, Bool.and_true]
  rfl

theorem tag_get_at_eq (hwf : WF (h + 1) s) (hok : TagOK tag (h + 1) s b) :
    tag_get_at tag index (h + 1) s = some (tagAt tag (h + 1) s b index) := by
  induction h generalizing s b with
  | zero =>
    rcases hwf.cases with rfl | ⟨_, slots, tags, rfl, _, hslots⟩
    · rfl
    have hbelow := hok.2 (offset index 0)
    show some (tags tag (offset index 0)) =
      some (tagAt tag 0 (slots (offset index 0)) (tags tag (offset index 0)) index)
    -- An empty slot has no tag.
    rcases (hslots (offset index 0)).cases_zero with hnull | ⟨p, hitem, _⟩
    · rw [hnull] at hbelow ⊢
      rw [TagOK_null.mp hbelow]
      rfl
    rw [hitem]
    rfl
  | succ h ih =>
    rcases hwf.cases with rfl | ⟨_, slots, tags, rfl, _, hslots⟩
    · rfl
    · exact ih (hslots _) (hok.2 _)

/-! ## Deleting -/

/-- All slots and tag bits of the node but those at offset 0 are clear, and `count` is the
number of its slots in use. -/
def ClearAbove : Slot → Prop
  | .node _ count slots tags => count = occupied slots ∧
      ∀ o, o ≠ 0 → slots o = .null ∧ ∀ t, tags t o = false
  | _ => False

/-- What removing the item at the index does to a subtree. The nodes that are
freed are clear. -/
structure Unlinks (index h : Nat) (b : Fin 2 → Bool) (s s' : Slot) (frees : List Slot) : Prop where
  wf : WF h s'
  items : ∀ j, get h s' j = if Same h j index then none else get h s j
  ok : ∀ t, TagOK t h s' (b t)
  bit : ∀ t j, tagAt t h s' (b t) j = tagAt t h s (b t) j
  freed : ∀ n ∈ frees, ClearAbove n

variable {frees : List Slot}

/-- The step of the way back: the slot of the child is changed, and the count of
the node follows. -/
theorem Unlinks.of_child {index h count count' : Nat} {slots : Fin 64 → Slot}
    {tags : Fin 2 → Fin 64 → Bool} {b : Fin 2 → Bool} (hslots : ∀ o, WF h (slots o))
    (hok : ∀ t, TagOK t (h + 1) (.node (h + 1) count slots tags) (b t))
    (hcount' : count' = occupied (setSlot slots (offset index h) child))
    (hun : Unlinks index h (fun t => tags t (offset index h)) (slots (offset index h)) child
      frees) :
    Unlinks index (h + 1) b (.node (h + 1) count slots tags)
      (.node (h + 1) count' (setSlot slots (offset index h) child) tags) frees := by
  refine ⟨WF_setSlot hslots hun.wf hcount', ?_, ?_, ?_, hun.freed⟩
  · intro j
    exact get_setSlot_if (same_succ h j index) (hun.items j)
  · intro t
    exact TagOK_setSlot (hok t) (hun.ok t)
  intro t j
  exact tagAt_setSlot_same rfl (hun.bit t j)

/-- A node without children has no tags, and neither has its slot. -/
theorem TagOK.of_empty {height count : Nat}
    (hok : TagOK t (h + 1) (.node height count slots tags) b) (hempty : ∀ o, slots o = .null) :
    (∀ o, tags t o = false) ∧ b = false := by
  have hclear : ∀ o, tags t o = false := by
    intro o
    have hbelow := hok.2 o
    rw [hempty o] at hbelow
    exact TagOK_null.mp hbelow
  refine ⟨hclear, ?_⟩
  rw [Bool.eq_false_iff]
  intro hb
  obtain ⟨o, ho⟩ := hok.1.mp hb
  rw [hclear o] at ho
  cases ho

section
variable {slots : Fin 64 → Slot}
variable (hempty : ∀ o, slots o = .null)
include hempty

/-- A node that has become empty is freed. -/
theorem Unlinks.of_empty {b : Fin 2 → Bool}
    (hun : Unlinks index (h + 1) b s (.node (h + 1) 0 slots tags) frees) :
    Unlinks index (h + 1) b s .null (frees ++ [.node (h + 1) 0 slots tags]) := by
  refine ⟨WF_null, ?_, ?_, ?_, ?_⟩
  · intro j
    rw [← hun.items j, get_null]
    show none = get h (slots (offset j h)) j
    rw [hempty, get_null]
  · intro t
    exact TagOK_null.mpr ((hun.ok t).of_empty hempty).2
  · intro t j
    rw [← hun.bit t j, tagAt_null]
    show false = tagAt t h (slots (offset j h)) _ j
    rw [hempty, tagAt_null]
  intro n hn
  rcases mem_append.mp hn with hold | hnew
  · exact hun.freed n hold
  rw [mem_singleton.mp hnew]
  exact ⟨(occupied_eq_zero_iff.mpr hempty).symm,
    fun o _ => ⟨hempty o, fun t => ((hun.ok t).of_empty hempty).1 o⟩⟩

end

/-- **Removing an item** that is there and has no tags. -/
theorem unlink_at_spec {b : Fin 2 → Bool} (hwf : WF h s) (hok : ∀ t, TagOK t h s (b t))
    (hget : get h s index ≠ none) (hclear : ∀ t, tagAt t h s (b t) index = false) :
    ∃ s' reached frees, unlink_at index h s = some (s', reached, frees) ∧
      Unlinks index h b s s' frees := by
  induction h generalizing s b with
  | zero =>
    rcases hwf.cases_zero with rfl | ⟨p, rfl, _⟩
    · exact absurd (get_null index) hget
    refine ⟨.null, true, [], rfl, ⟨WF_null, ?_, ?_, ?_, fun n hn => absurd hn not_mem_nil⟩⟩
    · intro j
      rw [if_pos (same_zero j index), get_null]
    · intro t
      exact TagOK_null.mpr (hclear t)
    intro t j
    exact (hclear t).symm
  | succ h ih => ?_
  rcases hwf.cases with rfl | ⟨count, slots, tags, rfl, hcount, hslots⟩
  · exact absurd (get_null index) hget
  obtain ⟨child, reached, frees, heq, hun⟩ := ih (b := fun t => tags t (offset index h))
    (hslots (offset index h)) (fun t => (hok t).2 _) hget hclear
  have hle := @occupied_le slots
  have hocc := @occupied_setSlot slots child (offset index h)
  have hfull : (slots (offset index h)).isNull = false := by
    rw [Bool.eq_false_iff]
    intro hnull
    apply hget
    show get h (slots (offset index h)) index = none
    rw [Slot.isNull_iff.mp hnull, get_null]
  rw [hfull] at hocc
  unfold unlink_at
  simp only [heq]
  cases hchild : child.isNull with
  | false =>
    rw [hchild] at hocc
    exact ⟨_, false, frees, rfl, hun.of_child hslots hok (by omega)⟩
  | true => ?_
  rw [hchild] at hocc
  rw [Slot.isNull_iff.mp hchild] at hun hocc
  have hsub : sub32 count 1 = occupied (setSlot slots (offset index h) .null) := by
    have hpos : 1 ≤ count := by
      simp only [Bool.not_false, Bool.toNat_true, Bool.not_true, Bool.toNat_false] at hocc
      omega
    rw [sub32_eq (by omega) hpos]
    simp only [Bool.not_false, Bool.toNat_true, Bool.not_true, Bool.toNat_false] at hocc
    omega
  have hnode := hun.of_child hslots hok hsub
  by_cases hzero : sub32 count 1 = 0
  · -- The node has no child any more.
    have hempty := occupied_eq_zero_iff.mp (hsub.symm.trans hzero)
    rw [hzero] at hnode ⊢
    exact ⟨.null, true, _, rfl, hnode.of_empty hempty⟩
  simp only [Bool.not_true, Bool.false_eq_true, if_false, if_pos hzero]
  exact ⟨_, true, frees, rfl, hnode⟩

/-! ### A node whose only child is the first one -/

section first
variable {h height count : Nat} {slots : Fin 64 → Slot} {tags : Fin 2 → Fin 64 → Bool}
variable {t : Fin 2} {b : Bool} (hothers : ∀ o, o ≠ 0 → slots o = .null)

theorem offset_eq_zero_iff (hj : j < 64 ^ (h + 1)) : offset j h = 0 ↔ j < 64 ^ h := by
  rw [Fin.ext_iff, offset_val]
  exact Digits.digit_eq_zero_iff hj

/-- What is found through the first slot, when nothing is found through the others. -/
theorem only_first {α : Type} {f : Fin 64 → α} {d : α} (hf : ∀ o, o ≠ 0 → f o = d) (j : Nat) :
    (if j < 64 ^ (h + 1) then f (offset j h) else d) = if j < 64 ^ h then f 0 else d := by
  by_cases hj : j < 64 ^ (h + 1)
  · have hzero := offset_eq_zero_iff hj
    rw [if_pos hj]
    by_cases hlow : j < 64 ^ h
    · rw [if_pos hlow, hzero.mpr hlow]
    · rw [if_neg hlow, hf _ (fun ho => hlow (hzero.mp ho))]
  rw [if_neg hj, if_neg (by omega)]

include hothers in
theorem get_first (j : Nat) :
    (if j < 64 ^ (h + 1) then get (h + 1) (.node height count slots tags) j else none) =
      if j < 64 ^ h then get h (slots 0) j else none := by
  apply only_first (f := fun o => get h (slots o) j)
  intro o ho
  rw [hothers o ho, get_null]

include hothers in
theorem tagAt_first (j : Nat) :
    (if j < 64 ^ (h + 1) then tagAt t (h + 1) (.node height count slots tags) b j else false) =
      if j < 64 ^ h then tagAt t h (slots 0) (tags t 0) j else false := by
  apply only_first (f := fun o => tagAt t h (slots o) (tags t o) j)
  intro o ho
  rw [hothers o ho, tagAt_null]

include hothers in
/-- Such a node has the bits of its child, and so has the slot above it. -/
theorem TagOK_first : TagOK t (h + 1) (.node height count slots tags) b ↔
    b = tags t 0 ∧ (∀ o, o ≠ 0 → tags t o = false) ∧ TagOK t h (slots 0) (tags t 0) := by
  have honly : (∀ o, o ≠ 0 → tags t o = false) → ((∃ o, tags t o = true) ↔ tags t 0 = true) := by
    intro hclear
    refine ⟨?_, fun hfirst => ⟨0, hfirst⟩⟩
    rintro ⟨o, ho⟩
    by_cases hzero : o = 0
    · rw [← hzero]
      exact ho
    rw [hclear o hzero] at ho
    cases ho
  constructor
  · rintro ⟨hbit, hbelow⟩
    have hclear : ∀ o, o ≠ 0 → tags t o = false := by
      intro o ho
      have hnull := hbelow o
      rw [hothers o ho] at hnull
      exact TagOK_null.mp hnull
    refine ⟨?_, hclear, hbelow 0⟩
    rw [Bool.eq_iff_iff, hbit, honly hclear]
  rintro ⟨rfl, hclear, hfirst⟩
  refine ⟨(honly hclear).symm, ?_⟩
  intro o
  by_cases hzero : o = 0
  · rw [hzero]
    exact hfirst
  rw [hothers o hzero, hclear o hzero]
  exact TagOK_null.mpr rfl

end first

/-- What making the tree less high does: below `64 ^ height` nothing changes. -/
structure Shrinks (h : Nat) (b : Fin 2 → Bool) (s : Slot) (h' : Nat) (s' : Slot)
    (frees : List Slot) : Prop where
  le : h' ≤ h
  wf : WF h' s'
  items : ∀ j, (if j < 64 ^ h' then get h' s' j else none) = if j < 64 ^ h then get h s j else none
  ok : ∀ t, TagOK t h' s' (b t)
  bit : ∀ t j, (if j < 64 ^ h' then tagAt t h' s' (b t) j else false) =
    if j < 64 ^ h then tagAt t h s (b t) j else false
  freed : ∀ n ∈ frees, ClearAbove n

variable {slots : Fin 64 → Slot}

/-- A count of 1 and a first slot in use: the others are empty. -/
theorem occupied_one (hone : occupied slots = 1) (hfirst : (slots 0).isNull = false) {o : Fin 64}
    (ho : o ≠ 0) : slots o = .null := by
  by_contra hne
  have hocc := @occupied_setSlot slots .null 0
  rw [hfirst, hone] at hocc
  simp only [Slot.isNull, Bool.not_false, Bool.toNat_true, Bool.not_true, Bool.toNat_false] at hocc
  have hempty := occupied_eq_zero_iff.mp (show occupied (setSlot slots 0 .null) = 0 by omega) o
  apply hne
  rw [← hempty]
  exact (update_of_ne ho _ _).symm

theorem mark_indirect_isNull (s : Slot) : (mark_indirect s).isNull = s.isNull := by
  cases s <;> rfl

theorem ClearAbove.of_first {height count : Nat} (hone : count = 1)
    (hcount : count = occupied slots) (hothers : ∀ o, o ≠ 0 → slots o = .null)
    (hclear : ∀ t o, o ≠ 0 → tags t o = false) :
    ClearAbove (.node height 1
      (if h = 0 then setSlot slots 0 (mark_indirect (slots 0)) else slots) tags) := by
  by_cases hzero : h = 0
  · rw [if_pos hzero]
    have hocc := @occupied_setSlot slots (mark_indirect (slots 0)) 0
    rw [mark_indirect_isNull] at hocc
    refine ⟨by omega, ?_⟩
    intro o ho
    refine ⟨?_, fun t => hclear t o ho⟩
    show update slots 0 _ o = .null
    rw [update_of_ne ho]
    exact hothers o ho
  rw [if_neg hzero]
  exact ⟨by omega, fun o ho => ⟨hothers o ho, fun t => hclear t o ho⟩⟩

/-- **`radix_tree_shrink`**, from a tree that is not empty. -/
theorem shrink_loop_spec {b : Fin 2 → Bool} (hwf : WF h s) (hok : ∀ t, TagOK t h s (b t))
    (hne : s.isNull = false) :
    ∃ h' s' frees, shrink_loop h s = some (h', s', frees) ∧ Shrinks h b s h' s' frees := by
  induction h generalizing s b with
  | zero =>
    exact ⟨0, s, [], by rfl,
      ⟨Nat.le_refl _, hwf, fun _ => rfl, hok, fun _ _ => rfl,
        fun n hn => absurd hn not_mem_nil⟩⟩
  | succ h ih => ?_
  rcases hwf.cases with rfl | ⟨count, slots, tags, rfl, hcount, hslots⟩
  · cases hne
  have hstay : Shrinks (h + 1) b (.node (h + 1) count slots tags) (h + 1)
      (.node (h + 1) count slots tags) [] :=
    ⟨Nat.le_refl _, hwf, fun _ => rfl, hok, fun _ _ => rfl,
      fun n hn => absurd hn not_mem_nil⟩
  unfold shrink_loop
  by_cases hone : count = 1
  · cases hfirst : (slots 0).isNull with
    | true =>
      simp only [hone, ne_eq, not_true_eq_false, if_false, if_true]
      rw [hone] at hstay
      exact ⟨_, _, _, rfl, hstay⟩
    | false => ?_
    have hothers := fun o ho => occupied_one (o := o) (hcount.symm.trans hone) hfirst ho
    have hbits := fun t => (TagOK_first hothers).mp (hok t)
    obtain ⟨h', s', frees, heq, hsh⟩ := ih (b := b) (hslots 0)
      (fun t => by rw [(hbits t).1]; exact (hbits t).2.2) hfirst
    simp only [hone, ne_eq, not_true_eq_false, if_false, Bool.false_eq_true, heq]
    refine ⟨h', s', _, rfl, ⟨Nat.le_succ_of_le hsh.le, hsh.wf, ?_, hsh.ok, ?_, ?_⟩⟩
    · intro j
      rw [hsh.items j, get_first hothers]
    · intro t j
      rw [hsh.bit t j, tagAt_first hothers, (hbits t).1]
    intro n hn
    rcases mem_cons.mp hn with rfl | hrest
    · exact ClearAbove.of_first hone hcount hothers fun t => (hbits t).2.1
    · exact hsh.freed n hrest
  rw [if_pos hone]
  exact ⟨_, _, _, rfl, hstay⟩

end Nubernel.Radix
