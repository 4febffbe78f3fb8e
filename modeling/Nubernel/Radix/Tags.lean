import Mathlib.Tactic.FinCases
import Nubernel.Radix.Map

/-! # radix-tree: tags

What `radix_tree_tag_get` and `radix_tree_tagged` answer, in terms of the
calls that have been made, what the tag bits inside the tree mean, and what
the nodes look like that are freed.
-/

open LTS List

namespace Nubernel.Radix

/-! ## The history of a tag -/

/-- Whether the tag at the index has been set more recently than it has been
cleared or an item has been inserted there: what it was before a call, and
what it is after it. -/
def remark (t : Fin 2) (j : Nat) (marked : Bool) (l : Label) : Bool :=
  match l.call with
  | .insert index _ _ => if index = j ∧ l.ret = .error 0 then false else marked
  | .delete _ => marked
  | .tag_set index tag => if tag = t ∧ index = j then true else marked
  | .tag_clear index tag => if tag = t ∧ index = j then false else marked

def marked (t : Fin 2) (j : Nat) (ls : List Label) : Bool := ls.foldl (remark t j) false

/-- The tag of an index is what its history says, if there is an item. -/
def Remembers (t : Fin 2) (j : Nat) (root : Root) (b : Bool) : Prop :=
  tagged root t j = ((item root j).isSome && b)

variable {b : Bool} {j : Nat} {root root' : Root} {t : Fin 2} {ls : List Label}
   {path : List (Fin 64)}

theorem Remembers.step {l : Label}
    (hinv : Inv root) (hrem : Remembers t j root b) (hstep : radix.step root l root') :
    Remembers t j root' (remark t j b l) := by
  have heffect := radix_step hinv hstep
  obtain ⟨call, ret, frees⟩ := l
  unfold Remembers remark at *
  cases heffect with
  | @insert index p allocs ret hspec =>
    simp only [hspec.tags t j, hspec.items j, Ret.error.injEq]
    by_cases hset : index = j ∧ ret = 0
    · obtain ⟨rfl, rfl⟩ := hset
      -- The place was free, so it had no tag.
      have hfree : item root index = none := by
        by_contra htaken
        exact absurd (hspec.taken htaken) (by decide)
      rw [tagged_of_item hfree]
      simp
    have hne : ¬(ret = 0 ∧ j = index) := fun hboth => hset ⟨hboth.2.symm, hboth.1⟩
    rw [if_neg hset, if_neg hne]
    exact hrem
  | @delete index _ hspec =>
    simp only [hspec.tags t j, hspec.items j]
    by_cases hj : j = index
    · simp [hj]
    · simp [hj, hrem]
  | @tag_set index tag hne _ hitems htags =>
    simp only [htags t j, hitems j]
    by_cases hthis : tag = t ∧ index = j
    · obtain ⟨rfl, rfl⟩ := hthis
      have hsome : (item root index).isSome = true := Option.isSome_iff_ne_none.mpr hne
      simp [hsome]
    have hnot : ¬(t = tag ∧ j = index) := fun hboth => hthis ⟨hboth.1.symm, hboth.2.symm⟩
    rw [if_neg hthis, decide_eq_false hnot, Bool.or_false]
    exact hrem
  | @tag_clear index tag _ hitems htags =>
    simp only [htags t j, hitems j]
    by_cases hthis : tag = t ∧ index = j
    · obtain ⟨rfl, rfl⟩ := hthis
      simp
    have hnot : ¬(t = tag ∧ j = index) := fun hboth => hthis ⟨hboth.1.symm, hboth.2.symm⟩
    rw [if_neg hthis, decide_eq_false hnot, Bool.not_false, Bool.and_true]
    exact hrem

theorem Inv.steps (hinv : Inv root)
    (hrun : radix.Steps root ls root') : Inv root' :=
  hrun.preserves (P := Inv) (fun _ _ _ hinv hstep => (radix_step hinv hstep).inv) hinv

theorem Remembers.steps
    (hinv : Inv root) (hrem : Remembers t j root b) (hrun : radix.Steps root ls root') :
    Remembers t j root' (ls.foldl (remark t j) b) := by
  induction hrun generalizing b with
  | nil s => exact hrem
  | cons hstep _ ih => exact ih (radix_step hinv hstep).inv (hrem.step hinv hstep)

/-- The nodes that a run frees are clear. -/
theorem freed_clear (hinv : Inv root)
    (hrun : radix.Steps root ls root') : ∀ l ∈ ls, ∀ n ∈ l.frees, ClearAbove n := by
  induction hrun with
  | nil s => exact fun l hl => absurd hl not_mem_nil
  | @cons root₀ _ _ l _ hstep _ ih => ?_
  have heffect := radix_step hinv hstep
  intro l' hl' n hn
  rcases mem_cons.mp hl' with rfl | hrest
  · obtain ⟨call, ret, frees⟩ := l'
    cases heffect with
    | insert _ | tag_set _ _ _ _ | tag_clear _ _ _ => exact absurd hn not_mem_nil
    | delete hspec => exact hspec.freed n hn
  exact ih heffect.inv l' hrest n hn

/-! ## The bits inside the tree -/

/-- The subtree at the end of a path. -/
def Slot.descend : Slot → List (Fin 64) → Slot
  | s, [] => s
  | .node _ _ slots _, o :: path => (slots o).descend path
  | _, _ :: _ => .null

/-- The way to the index in a tree of height `h` begins with the path. -/
def Through : Nat → List (Fin 64) → Nat → Prop
  | _, [], _ => True
  | h + 1, o :: path, index => offset index h = o ∧ Through h path index
  | 0, _ :: _, _ => False

variable {h height : Nat} {slots : Fin 64 → Slot} {tags : Fin 2 → Fin 64 → Bool}

theorem Through.congr {i : Nat} (hsame : Same h i j) :
    Through h path i ↔ Through h path j := by
  induction h generalizing path with
  | zero => cases path <;> exact Iff.rfl
  | succ h ih => ?_
  obtain ⟨hoff, hlow⟩ := (same_succ h i j).mp hsame
  cases path with
  | nil => exact Iff.rfl
  | cons o path =>
    show offset i h = o ∧ Through h path i ↔ offset j h = o ∧ Through h path j
    rw [hoff, ih hlow]

/-- An index below a child is an index below the node, with the digit of the
child on top. -/
theorem exists_below {h : Nat} (o : Fin 64) {path : List (Fin 64)} {slots : Fin 64 → Slot}
    {tags : Fin 2 → Fin 64 → Bool} {height count : Nat} {t : Fin 2} {b : Bool} :
    (∃ index, Through h path index ∧ tagAt t h (slots o) (tags t o) index = true) ↔
      ∃ index, Through (h + 1) (o :: path) index ∧
        tagAt t (h + 1) (.node height count slots tags) b index = true := by
  constructor
  · rintro ⟨index, hthrough, htag⟩
    let j := Digits.put 64 h o index
    have hoff : offset j h = o := by
      rw [Fin.ext_iff, offset_val]
      exact Digits.digit_put (by decide) o.isLt index
    have hsame : Same h j index := Digits.put_mod 64 h o index
    refine ⟨j, ⟨hoff, (Through.congr hsame).mpr hthrough⟩, ?_⟩
    show tagAt t h (slots (offset j h)) (tags t (offset j h)) j = true
    rw [hoff, tagAt_congr hsame]
    exact htag
  rintro ⟨index, ⟨rfl, hthrough⟩, htag⟩
  exact ⟨index, hthrough, htag⟩

/-- **A bit in a node** is set exactly if some item on the way through it is
tagged. -/
theorem bit_iff {s : Slot} (hwf : WF h s) (hok : TagOK t h s b) {count : Nat}
    (hat : s.descend path = .node height count slots tags) (o : Fin 64) :
    tags t o = true ↔ ∃ index, Through h (path ++ [o]) index ∧ tagAt t h s b index = true := by
  induction path generalizing h s b with
  | nil =>
    rw [Slot.descend] at hat
    subst hat
    match h with
    | 0 => exact absurd hwf id
    | h + 1 =>
      obtain ⟨_, _, hslots⟩ := hwf
      rw [(hok.2 o).iff_exists (hslots o), nil_append,
        ← @exists_below h o [] slots tags height count]
      simp [Through]
  | cons o' path ih => ?_
  match h, s with
  | _, .null => cases hat
  | _, .item _ => cases hat
  | 0, .node _ _ _ _ => exact absurd hwf id
  | h + 1, .node height' count' slots' tags' =>
    rw [ih (hwf.2.2 o') (hok.2 o') hat, cons_append, ← @exists_below h o' _ _ _ height' count']

/-- Indices that only differ above the tree may be exchanged for those in it. -/
theorem exists_tagged {P : Nat → Prop}
    (hP : ∀ i j, Same root.height i j → (P i ↔ P j)) :
    (∃ index, P index ∧ tagAt t root.height root.rnode (root.tags t) index = true) ↔
      ∃ index, P index ∧ tagged root t index = true := by
  constructor
  · rintro ⟨index, hindex, htag⟩
    have hsame : Same root.height (index % 64 ^ root.height) index := Nat.mod_mod _ _
    refine ⟨index % 64 ^ root.height, (hP _ _ hsame).mpr hindex, ?_⟩
    rw [tagged, if_pos (Nat.mod_lt _ (Nat.pow_pos (by decide))), tagAt_congr hsame]
    exact htag
  rintro ⟨index, hindex, htag⟩
  refine ⟨index, hindex, ?_⟩
  unfold tagged at htag
  by_cases hlt : index < 64 ^ root.height
  · rw [if_pos hlt] at htag
    exact htag
  rw [if_neg hlt] at htag
  cases htag

theorem root_iff_tagged (hinv : Inv root) (t : Fin 2) :
    root.tags t = true ↔ ∃ index, tagged root t index = true := by
  rw [(hinv.ok t).iff_exists hinv.wf]
  simpa only [true_and] using @exists_tagged root t (fun _ => True) fun _ _ _ => Iff.rfl

/-! ## Runs -/

/-- The height of a node and its count. -/
def Slot.header : Slot → Nat × Nat
  | .node height count _ _ => (height, count)
  | _ => (0, 0)

/-- A node that is clear above slot 0 is given back to the slab zeroed, but for
its height. -/
theorem ClearAbove.rcu_free {n : Slot} (hclear : ClearAbove n) :
    radix_tree_node_rcu_free n = zeroed n.header.1 := by
  match n with
  | .null => exact absurd hclear id
  | .item _ => exact absurd hclear id
  | .node height count slots tags =>
    obtain ⟨_, hothers⟩ := hclear
    have hslots : setSlot slots 0 .null = fun _ => .null := by
      funext o
      by_cases ho : o = 0
      · rw [ho]
        exact Function.update_self _ _ _
      rw [show setSlot slots 0 .null o = slots o from Function.update_of_ne ho _ _]
      exact (hothers o ho).1
    have htags : setTag (setTag tags 0 0 false) 1 0 false = fun _ _ => false := by
      funext t o
      by_cases ho : o = 0
      · subst ho
        fin_cases t <;> simp [setTag]
      have hclear := (hothers o ho).2 t
      fin_cases t <;> simpa [setTag, ho] using hclear
    show Slot.node height 0 (setSlot slots 0 .null) (setTag (setTag tags 0 0 false) 1 0 false) = _
    rw [hslots, htags]
    rfl

/-- The items of a tree have small indices. -/
theorem lt_of_tagged {m : Nat → Option Nat} (himp : Implements root m)
    {index : Nat} (htag : tagged root t index = true) : index < 2 ^ 32 := by
  by_contra hge
  have hnone := (himp.items index).trans (himp.small index (Nat.le_of_not_lt hge))
  rw [tagged_of_item hnone] at htag
  cases htag

/-- **Tags.** After every run of inserts and deletes, tags set on items that are
present and cleared anywhere: `radix_tree_tag_get` answers 1 exactly for the
items that have been tagged since they were inserted and since the tag was
last cleared; a bit in a node is set exactly if some item below is tagged,
and so is the tag of the root; and the nodes that were freed on the way have
no slot in use but slot 0 and no tag bit but those of slot 0, their count
is that of the slots in use, and they go back to the slab zeroed but for
their height. -/
theorem radix_tree_tags {root : Root} {ls : List Label}
    (hrun : radix.Steps INIT_RADIX_TREE ls root) :
    (∀ t index, index < 2 ^ 32 → radix_tree_tag_get root index t =
      some (decide (radix_tree_lookup root index ≠ some none) && marked t index ls)) ∧
    (∀ t path height count slots tags,
      root.rnode.descend path = .node height count slots tags → ∀ o, tags t o = true ↔
        ∃ index, index < 2 ^ 32 ∧ Through root.height (path ++ [o]) index ∧
          radix_tree_tag_get root index t = some true) ∧
    (∀ t, radix_tree_tagged root t = true ↔
      ∃ index, index < 2 ^ 32 ∧ radix_tree_tag_get root index t = some true) ∧
    ∀ l ∈ ls, ∀ n ∈ l.frees, ClearAbove n ∧ radix_tree_node_rcu_free n = zeroed n.header.1 := by
  obtain ⟨m, _, himp⟩ := hrun.simulates
    (fun _ _ _ _ himp hstep => Implements.step himp hstep) Implements.init
  have hget : ∀ t index, index < 2 ^ 32 →
      (radix_tree_tag_get root index t = some true ↔ tagged root t index = true) := by
    intro t index hindex
    rw [radix_tree_tag_get_eq himp.inv hindex, Option.some.injEq]
  refine ⟨?_, ?_, ?_, ?_⟩
  · intro t index hindex
    have hinit : Remembers t index INIT_RADIX_TREE false := by
      unfold Remembers
      rw [tagged_init, Bool.and_false]
    have hrem := hinit.steps Inv.init hrun
    rw [radix_tree_tag_get_eq himp.inv hindex, radix_tree_lookup_eq himp.inv hindex, hrem]
    cases item root index <;> simp [marked]
  · intro t path height count slots tags hat o
    rw [bit_iff himp.inv.wf (himp.inv.ok t) hat o,
      exists_tagged fun _ _ hsame => Through.congr hsame]
    constructor
    · rintro ⟨index, hthrough, htag⟩
      have hindex := lt_of_tagged himp htag
      exact ⟨index, hindex, hthrough, (hget t index hindex).mpr htag⟩
    rintro ⟨index, hindex, hthrough, htag⟩
    exact ⟨index, hthrough, (hget t index hindex).mp htag⟩
  · intro t
    show root.tags t = true ↔ _
    rw [root_iff_tagged himp.inv t]
    constructor
    · rintro ⟨index, htag⟩
      have hindex := lt_of_tagged himp htag
      exact ⟨index, hindex, (hget t index hindex).mpr htag⟩
    rintro ⟨index, hindex, htag⟩
    exact ⟨index, (hget t index hindex).mp htag⟩
  intro l hl n hn
  have hclear := freed_clear Inv.init hrun l hl n hn
  exact ⟨hclear, hclear.rcu_free⟩

/-- Two items, one of them tagged, and the other deleted. -/
def twoItems : List Call :=
  [.insert 0 4 [], .insert 1 8 [true], .tag_set 0 1, .tag_set 1 0, .tag_clear 1 0, .delete 1]

theorem radix_tree_tags_twoItems :
    radix_tree_tag_get (play INIT_RADIX_TREE twoItems).2 0 1 = some true ∧
    radix_tree_tag_get (play INIT_RADIX_TREE twoItems).2 1 0 = some false ∧
    radix_tree_tagged (play INIT_RADIX_TREE twoItems).2 1 = true := by
  have hplay : playable INIT_RADIX_TREE twoItems = true := by decide +kernel
  obtain ⟨hget, _, hroot, _⟩ := radix_tree_tags (steps_of_play hplay)
  refine ⟨?_, ?_, ?_⟩
  · rw [hget 1 0 (by decide)]
    decide +kernel
  · rw [hget 0 1 (by decide)]
    decide +kernel
  · exact (hroot 1).mpr ⟨0, by decide, by decide +kernel⟩

/-- The node that is no longer needed when the second of two items is deleted is
freed with its height and its count. -/
theorem freed_not_zero :
    radix.Steps INIT_RADIX_TREE (play INIT_RADIX_TREE twoItems).1
      (play INIT_RADIX_TREE twoItems).2 ∧
    (play INIT_RADIX_TREE twoItems).1.map (fun l => l.frees.map Slot.header) =
      [[], [], [], [], [], [(1, 1)]] :=
  ⟨steps_of_play (by decide +kernel), by decide +kernel⟩

end Nubernel.Radix
