import Nubernel.Lib.Positions
import Nubernel.PrioTree.Model

/-! # Priority search trees: links

The pointers of a tree, against a layout that says which node is at which
position. The operations on pointers are a node taking the place of another, a
leaf that is added or cut off, and a node that is put on top of a tree.
-/

open Function List Option Positions

namespace Nubernel.PrioTree

/-- The node at each position. -/
abbrev Layout := Pos → Option Nat

def Member (lay : Layout) (p : Nat) : Prop := ∃ π, lay π = some p

variable {p : Nat}

theorem Member.ne {lay : Layout} {q : Nat} (hp : Member lay p) (hq : ¬Member lay q) : p ≠ q := by
  rintro rfl
  exact hq hp

/-- The pointers of the nodes are those of the layout. The node at the top points up
to `up`, or to itself. -/
structure Hang (heap : Heap) (up : Option Nat) (lay : Layout) : Prop where
  closed : Closed lay
  inj : ∀ {π σ p}, lay π = some p → lay σ = some p → π = σ
  nonzero : ∀ {π p}, lay π = some p → p ≠ 0
  left : ∀ {π p}, lay π = some p → heap.left p = (lay (false :: π)).getD p
  right : ∀ {π p}, lay π = some p → heap.right p = (lay (true :: π)).getD p
  top : ∀ {p}, lay [] = some p → heap.parent p = up.getD p
  parent : ∀ {b π p q}, lay π = some p → lay (b :: π) = some q → heap.parent q = p

/-- The tree of a root. -/
structure Links (s : State) (lay : Layout) : Prop where
  hang : Hang s.heap none lay
  root : s.root.prio_tree_node = (lay []).getD 0

/-! ## Reading pointers -/

section read
variable {heap : Heap} {up : Option Nat} {lay : Layout} {π : Pos} {p : Nat}

section
variable (hh : Hang heap up lay) (hp : lay π = some p)
include hh hp

variable {q : Nat}

theorem Hang.child_ne {b : Bool} (hq : lay (b :: π) = some q) : q ≠ p := by
  rintro rfl
  exact ne_cons_self (hh.inj hp hq)

theorem Hang.left_empty :
    prio_tree_left_empty heap p = true ↔ lay (false :: π) = none := by
  unfold prio_tree_left_empty
  rw [decide_eq_true_eq, hh.left hp]
  cases hq : lay (false :: π) with
  | none => exact iff_of_true rfl rfl
  | some q => exact iff_of_false (hh.child_ne hp hq) (some_ne_none q)

theorem Hang.right_empty :
    prio_tree_right_empty heap p = true ↔ lay (true :: π) = none := by
  unfold prio_tree_right_empty
  rw [decide_eq_true_eq, hh.right hp]
  cases hq : lay (true :: π) with
  | none => exact iff_of_true rfl rfl
  | some q => exact iff_of_false (hh.child_ne hp hq) (some_ne_none q)

theorem Hang.left_eq (hq : lay (false :: π) = some q) : heap.left p = q := by
  rw [hh.left hp, hq]
  rfl

theorem Hang.right_eq (hq : lay (true :: π) = some q) : heap.right p = q := by
  rw [hh.right hp, hq]
  rfl

end

/-- The position above one of the tree. -/
theorem Hang.exists_parent (hh : Hang heap up lay) {b : Bool} (hp : lay (b :: π) = some p) :
    ∃ q, lay π = some q ∧ heap.parent p = q := by
  obtain ⟨q, hq⟩ := ne_none_iff_exists'.mp (hh.closed b π (by rw [hp]; exact some_ne_none p))
  exact ⟨q, hq, hh.parent hq hp⟩

theorem Hang.exists_top (hh : Hang heap up lay) (hp : lay π = some p) : ∃ top, lay [] = some top :=
  ne_none_iff_exists'.mp (hh.closed.of_suffix nil_suffix (by rw [hp]; exact some_ne_none p))

/-- Without a node at the top there is none. -/
theorem Hang.not_member (hh : Hang heap up lay) (htop : lay [] = none) : ¬Member lay p := by
  rintro ⟨π, hp⟩
  obtain ⟨top, h⟩ := hh.exists_top hp
  rw [htop] at h
  cases h

theorem Hang.root_iff (hh : Hang heap none lay) (hp : lay π = some p) :
    prio_tree_root heap p = true ↔ π = [] := by
  unfold prio_tree_root
  rw [decide_eq_true_eq]
  cases π with
  | nil => exact iff_of_true (hh.top hp) rfl
  | cons b π =>
    obtain ⟨q, hq, hparent⟩ := hh.exists_parent hp
    rw [hparent]
    exact iff_of_false (hh.child_ne hq hp).symm (cons_ne_nil b π)

variable {heap' : Heap}

/-- Only the nodes of the tree matter, and the one at the top may get another parent. -/
theorem Hang.reparent (hh : Hang heap up lay) {up' : Option Nat}
    (htop : ∀ p, lay [] = some p → heap'.parent p = up'.getD p)
    (hsame : ∀ p, Member lay p → heap'.left p = heap.left p ∧ heap'.right p = heap.right p ∧
      (lay [] ≠ some p → heap'.parent p = heap.parent p)) : Hang heap' up' lay := by
  refine ⟨hh.closed, hh.inj, hh.nonzero, ?_, ?_, htop _, ?_⟩
  · intro π p hp
    rw [(hsame p ⟨π, hp⟩).1]
    exact hh.left hp
  · intro π p hp
    rw [(hsame p ⟨π, hp⟩).2.1]
    exact hh.right hp
  intro b π p q hp hq
  rw [(hsame q ⟨b :: π, hq⟩).2.2 fun h => by cases hh.inj h hq]
  exact hh.parent hp hq

theorem Hang.congr (hh : Hang heap up lay)
    (hsame : ∀ p, Member lay p → heap'.left p = heap.left p ∧ heap'.right p = heap.right p ∧
      heap'.parent p = heap.parent p) : Hang heap' up lay := by
  refine hh.reparent ?_ fun p hp => ⟨(hsame p hp).1, (hsame p hp).2.1, fun _ => (hsame p hp).2.2⟩
  intro p hp
  rw [(hsame p ⟨[], hp⟩).2.2]
  exact hh.top hp

theorem Links.root_eq {s : State} (hl : Links s lay) (hp : lay [] = some p) :
    s.root.prio_tree_node = p := by
  rw [hl.root, hp]
  rfl

theorem Links.empty_iff {s : State} (hl : Links s lay) :
    prio_tree_empty s = true ↔ lay [] = none := by
  unfold prio_tree_empty
  rw [decide_eq_true_eq, hl.root]
  cases htop : lay [] with
  | none => exact iff_of_true rfl rfl
  | some top => exact iff_of_false (hl.hang.nonzero htop) (some_ne_none top)

end read

/-! ### Children by side -/

/-- The pointer to the left or the right child. -/
def Heap.child (heap : Heap) (b : Bool) (p : Nat) : Nat := if b then heap.right p else heap.left p

def set_child (heap : Heap) (b : Bool) (p v : Nat) : Heap :=
  if b then set_right heap p v else set_left heap p v

section child
variable {heap : Heap} {up : Option Nat} {lay : Layout} {π : Pos}

theorem child_set_child (heap : Heap) (b c : Bool) (q v p : Nat) :
    (set_child heap b q v).child c p = if c = b ∧ p = q then v else heap.child c p := by
  have hupdate : ∀ f : Nat → Nat, update f q v p = if p = q then v else f p :=
    fun f => update_apply f q v p
  cases b with
  | false =>
    cases c with
    | false =>
      refine (hupdate heap.left).trans ?_
      simp only [true_and]
      rfl
    | true =>
      rfl
  | true => ?_
  cases c with
  | false =>
    rfl
  | true =>
    refine (hupdate heap.right).trans ?_
    simp only [true_and]
    rfl

theorem parent_set_child (heap : Heap) (b : Bool) (p v : Nat) :
    (set_child heap b p v).parent = heap.parent := by
  cases b <;> rfl

theorem intervals_set_child (heap : Heap) (b : Bool) (p v : Nat) :
    (set_child heap b p v).start = heap.start ∧ (set_child heap b p v).last = heap.last := by
  cases b <;> exact ⟨rfl, rfl⟩

theorem child_set_parent (heap : Heap) (c : Bool) (q v p : Nat) :
    (set_parent heap q v).child c p = heap.child c p := rfl

theorem child_init (heap : Heap) (c : Bool) (q p : Nat) :
    (INIT_PRIO_TREE_NODE heap q).child c p = if p = q then q else heap.child c p := by
  cases c with
  | false => exact update_apply heap.left q q p
  | true => exact update_apply heap.right q q p

theorem Hang.child (hh : Hang heap up lay) (b : Bool) (hp : lay π = some p) :
    heap.child b p = (lay (b :: π)).getD p := by
  cases b with
  | false => exact hh.left hp
  | true => exact hh.right hp

/-- A tree is described by its child pointers. -/
theorem Hang.of_child (hclosed : Closed lay)
    (hinj : ∀ {π σ p}, lay π = some p → lay σ = some p → π = σ)
    (hnonzero : ∀ {π p}, lay π = some p → p ≠ 0)
    (hchild : ∀ {b π p}, lay π = some p → heap.child b p = (lay (b :: π)).getD p)
    (htop : ∀ {p}, lay [] = some p → heap.parent p = up.getD p)
    (hparent : ∀ {b π p q}, lay π = some p → lay (b :: π) = some q → heap.parent q = p) :
    Hang heap up lay :=
  ⟨hclosed, hinj, hnonzero, fun hp => hchild (b := false) hp, fun hp => hchild (b := true) hp,
    htop, hparent⟩

end child

/-! ## A node takes the place of another -/

/-- `node` for `old`. -/
def rename (old node x : Nat) : Nat := if x = old then node else x

theorem rename_self (old node : Nat) : rename old node old = node := if_pos rfl

theorem rename_of_ne {old node x : Nat} (hne : x ≠ old) : rename old node x = x := if_neg hne

/-- The layout with `node` in the place of `old`. -/
def Layout.rename (lay : Layout) (old node : Nat) : Layout := fun σ =>
  (lay σ).map (PrioTree.rename old node)

section replace
variable {heap : Heap} {lay : Layout} {π : Pos} {old node : Nat}

theorem rename_inj {x y : Nat} (hx : x ≠ node) (hy : y ≠ node)
    (heq : PrioTree.rename old node x = PrioTree.rename old node y) : x = y := by
  unfold PrioTree.rename at heq
  by_cases hxo : x = old
  · by_cases hyo : y = old
    · rw [hxo, hyo]
    rw [if_pos hxo, if_neg hyo] at heq
    exact absurd heq.symm hy
  by_cases hyo : y = old
  · rw [if_neg hxo, if_pos hyo] at heq
    exact absurd heq hx
  rw [if_neg hxo, if_neg hyo] at heq
  exact heq

/-- Renaming a node and all pointers to it. -/
theorem Hang.rename (hh : Hang heap none lay) (hnew : ¬Member lay node) (hnode : node ≠ 0)
    (hchild : ∀ c p, Member lay p →
      heap'.child c (PrioTree.rename old node p) = PrioTree.rename old node (heap.child c p))
    (hparent : ∀ p, Member lay p →
      heap'.parent (PrioTree.rename old node p) = PrioTree.rename old node (heap.parent p)) :
    Hang heap' none (lay.rename old node) := by
  have hinv : ∀ {σ p'}, lay.rename old node σ = some p' →
      ∃ p, lay σ = some p ∧ PrioTree.rename old node p = p' := fun h =>
    map_eq_some_iff.mp h
  have hne : ∀ {σ p}, lay σ = some p → p ≠ node := fun hp => Member.ne ⟨_, hp⟩ hnew
  have hgetD : ∀ σ p, ((lay.rename old node) σ).getD (PrioTree.rename old node p) =
      PrioTree.rename old node ((lay σ).getD p) := by
    intro σ p
    unfold Layout.rename
    cases lay σ with
    | none => rfl
    | some q => rfl
  refine .of_child ?_ ?_ ?_ ?_ ?_ ?_
  · intro b σ h hnone
    refine h ?_
    unfold Layout.rename at hnone ⊢
    rw [map_eq_none_iff] at hnone ⊢
    by_contra hsome
    exact hh.closed b σ hsome hnone
  · intro σ τ p' hσ hτ
    obtain ⟨p, hp, rfl⟩ := hinv hσ
    obtain ⟨q, hq, heq⟩ := hinv hτ
    obtain rfl := rename_inj (hne hq) (hne hp) heq
    exact hh.inj hp hq
  · intro σ p' hσ
    obtain ⟨p, hp, rfl⟩ := hinv hσ
    unfold PrioTree.rename
    split
    · exact hnode
    · exact hh.nonzero hp
  · intro c σ p' hσ
    obtain ⟨p, hp, rfl⟩ := hinv hσ
    rw [hchild c p ⟨σ, hp⟩, hgetD, hh.child c hp]
  · intro p' hσ
    obtain ⟨p, hp, rfl⟩ := hinv hσ
    rw [hparent p ⟨[], hp⟩, hh.top hp]
    rfl
  intro b σ p' q' hσ hτ
  obtain ⟨p, hp, rfl⟩ := hinv hσ
  obtain ⟨q, hq, rfl⟩ := hinv hτ
  rw [hparent q ⟨b :: σ, hq⟩, hh.parent hp hq]

/-- What `prio_tree_replace` makes of the pointers. -/
structure Replaced (lay : Layout) (old node : Nat) (f f' : Nat → Nat) : Prop where
  same : f' old = f old
  self : f' node = rename old node (f old)
  member : ∀ p, Member lay p → p ≠ old → f' p = rename old node (f p)
  frame : ∀ p, ¬Member lay p → p ≠ node → f' p = f p

/-- A pointer that is set if there is a child. -/
theorem ite_update_apply (f : Nat → Nat) (k v c x : Nat) :
    (if decide (c = old) = true then f else update f k v) x =
      if x = k ∧ c ≠ old then v else f x := by
  by_cases hempty : c = old
  · rw [if_pos (by rw [decide_eq_true_eq]; exact hempty), if_neg fun h => h.2 hempty]
  rw [if_neg (by rw [decide_eq_true_eq]; exact hempty), update_apply]
  exact if_congr (and_iff_left hempty).symm rfl rfl

/-- The children of `old` are those of `node`. -/
theorem adopt_left_left (x : Nat) :
    (adopt_right (adopt_left heap old node) old node).left x =
      if x = node ∧ heap.left old ≠ old then heap.left old else heap.left x := by
  have hright : (adopt_right (adopt_left heap old node) old node).left =
      (adopt_left heap old node).left := by
    unfold adopt_right
    split <;> rfl
  rw [hright]
  unfold adopt_left prio_tree_left_empty
  rw [apply_ite Heap.left]
  exact ite_update_apply ..

theorem adopt_right_right (x : Nat) :
    (adopt_right (adopt_left heap old node) old node).right x =
      if x = node ∧ heap.right old ≠ old then heap.right old else heap.right x := by
  have hleft : (adopt_left heap old node).right = heap.right := by
    unfold adopt_left
    split <;> rfl
  unfold adopt_right prio_tree_right_empty
  rw [apply_ite Heap.right]
  refine (ite_update_apply ..).trans ?_
  rw [hleft]

theorem adopt_parent (x : Nat) :
    (adopt_right (adopt_left heap old node) old node).parent x =
      if x ≠ old ∧ (x = heap.left old ∨ x = heap.right old) then node else heap.parent x := by
  have hright : (adopt_left heap old node).right = heap.right := by
    unfold adopt_left
    split <;> rfl
  have hleft : (adopt_left heap old node).parent x =
      if x ≠ old ∧ x = heap.left old then node else heap.parent x := by
    unfold adopt_left prio_tree_left_empty
    rw [apply_ite Heap.parent]
    refine (ite_update_apply ..).trans (if_congr ?_ rfl rfl)
    constructor
    · rintro ⟨rfl, hne⟩
      exact ⟨hne, rfl⟩
    rintro ⟨hne, rfl⟩
    exact ⟨rfl, hne⟩
  unfold adopt_right prio_tree_right_empty
  rw [apply_ite Heap.parent]
  refine (ite_update_apply ..).trans ?_
  rw [hleft, hright]
  by_cases hx : x = heap.right old ∧ heap.right old ≠ old
  · rw [if_pos hx, if_pos ⟨hx.1.trans_ne hx.2, .inr hx.1⟩]
  rw [if_neg hx]
  refine if_congr (and_congr_right fun hne => ?_) rfl rfl
  rw [or_iff_left fun heq => hx ⟨heq, heq ▸ hne⟩]

/-- The pointers to children, when those that led to `old` lead to `node` before
the children are adopted. -/
theorem Replaced.of_child {f g f' : Nat → Nat} (hno : old ≠ node) (hnew : ¬Member lay node)
    (hself : g node = node) (hset : ∀ p, Member lay p → p ≠ old → f p = old → g p = node)
    (hkeep : ∀ p, p ≠ node → (Member lay p → p ≠ old → f p ≠ old) → g p = f p)
    (hf' : ∀ x, f' x = if x = node ∧ g old ≠ old then g old else g x) :
    Replaced lay old node f f' := by
  have hold : g old = f old := hkeep old hno fun _ h => absurd rfl h
  refine ⟨?_, ?_, ?_, ?_⟩
  · rw [hf', if_neg fun h => hno h.1, hold]
  · rw [hf', hold, hself]
    unfold rename
    by_cases hempty : f old = old
    · rw [if_neg fun h => h.2 hempty, if_pos hempty]
    · rw [if_pos ⟨rfl, hempty⟩, if_neg hempty]
  · intro p hp hne
    have hpn := hp.ne hnew
    rw [hf', if_neg fun h => hpn h.1]
    by_cases heq : f p = old
    · rw [hset p hp hne heq, heq, rename_self]
    · rw [hkeep p hpn fun _ _ => heq, rename_of_ne heq]
  intro p hp hne
  rw [hf', if_neg fun h => hne h.1, hkeep p hne fun h => absurd h hp]

section
variable (hh : Hang heap none lay) (hold : lay π = some old)
include hh hold

theorem Hang.parent_iff (hp : Member lay p) (hne : p ≠ old) :
    heap.parent p = old ↔ p = heap.left old ∨ p = heap.right old := by
  rw [hh.left hold, hh.right hold]
  constructor
  · intro hparent
    obtain ⟨σ, hσ⟩ := hp
    cases σ with
    | nil =>
      rw [hh.top hσ] at hparent
      exact absurd hparent hne
    | cons b σ => ?_
    obtain ⟨q, hq, heq⟩ := hh.exists_parent hσ
    rw [heq] at hparent
    subst hparent
    obtain rfl := hh.inj hq hold
    cases b with
    | false => exact .inl (by rw [hσ]; rfl)
    | true => exact .inr (by rw [hσ]; rfl)
  have hchild : ∀ b, p = (lay (b :: π)).getD old → heap.parent p = old := by
    intro b heq
    cases hb : lay (b :: π) with
    | none =>
      rw [hb] at heq
      exact absurd heq hne
    | some q =>
      rw [hb] at heq
      rw [show p = q from heq]
      exact hh.parent hold hb
  rintro (heq | heq)
  · exact hchild false heq
  · exact hchild true heq

/-- The children of a node are in the tree, if it has them. -/
theorem Hang.child_member (hp : p = heap.left old ∨ p = heap.right old) : Member lay p := by
  have hchild : ∀ b, p = (lay (b :: π)).getD old → Member lay p := by
    intro b heq
    cases hb : lay (b :: π) with
    | none =>
      rw [hb] at heq
      exact ⟨π, by rw [heq]; exact hold⟩
    | some q =>
      rw [hb] at heq
      exact ⟨b :: π, by rw [hb, heq]; rfl⟩
  rw [hh.left hold, hh.right hold] at hp
  rcases hp with heq | heq
  · exact hchild false heq
  · exact hchild true heq

theorem Replaced.of_parent {g f' : Nat → Nat} (hnew : ¬Member lay node)
    (hself : g node = rename old node (heap.parent old))
    (hother : ∀ p, p ≠ node → g p = heap.parent p)
    (hf' : ∀ x, f' x = if x ≠ old ∧ (x = heap.left old ∨ x = heap.right old) then node else g x) :
    Replaced lay old node heap.parent f' := by
  have hno : old ≠ node := Member.ne ⟨π, hold⟩ hnew
  refine ⟨?_, ?_, ?_, ?_⟩
  · rw [hf', if_neg fun h => h.1 rfl, hother old hno]
  · rw [hf', if_neg, hself]
    rintro ⟨_, h⟩
    exact hnew (hh.child_member hold h)
  · intro p hp hne
    rw [hf', hother p (hp.ne hnew)]
    have hiff := hh.parent_iff hold hp hne
    by_cases heq : heap.parent p = old
    · rw [if_pos ⟨hne, hiff.mp heq⟩, heq, rename_self]
    · rw [if_neg fun h => heq (hiff.mpr h.2), rename_of_ne heq]
  intro p hp hne
  rw [hf', if_neg, hother p hne]
  rintro ⟨_, h⟩
  exact hp (hh.child_member hold h)

end

variable {f f' : Nat → Nat} {p q : Nat} {s : State}

theorem Replaced.rename_eq (h : Replaced lay old node f f')
    (hp : Member lay p) : f' (rename old node p) = rename old node (f p) := by
  by_cases hpo : p = old
  · rw [hpo, rename_self, h.self]
  · rw [rename_of_ne hpo, h.member p hp hpo]

/-- The tree after a node has taken the place of another. -/
structure Replace (s : State) (lay : Layout) (old node : Nat) (s' : State) : Prop where
  links : Links s' (lay.rename old node)
  bits : s'.root.index_bits = s.root.index_bits
  start : s'.heap.start = s.heap.start
  last : s'.heap.last = s.heap.last
  parent : s'.heap.parent old = s.heap.parent old
  frame : ∀ p, ¬Member lay p → p ≠ node → s'.heap.left p = s.heap.left p ∧
    s'.heap.right p = s.heap.right p ∧ s'.heap.parent p = s.heap.parent p

theorem Hang.child_unique (hh : Hang heap none lay) {c : Bool} {σ : Pos} (hold : lay π = some old)
    (hp : lay σ = some p) (hne : p ≠ old) (hchild : heap.child c p = old) : π = c :: σ := by
  rw [hh.child c hp] at hchild
  cases hc : lay (c :: σ) with
  | none =>
    rw [hc] at hchild
    exact absurd hchild hne
  | some m =>
    rw [hc] at hchild
    obtain rfl : m = old := hchild
    exact hh.inj hold hc

theorem adopt_intervals :
    (adopt_right (adopt_left heap old node) old node).start = heap.start ∧
      (adopt_right (adopt_left heap old node) old node).last = heap.last := by
  unfold adopt_right adopt_left
  split <;> split <;> exact ⟨rfl, rfl⟩

section
variable (hl : Links s lay) (hold : lay π = some old) (hnew : ¬Member lay node) (hnode : node ≠ 0)
include hl hold hnew hnode

/-- `node` adopts the children of `old` once the pointers from above are set. -/
theorem Links.replace_of {root : Root} (hself : ∀ c, heap.child c node = node)
    (hset : ∀ c p, Member lay p → p ≠ old → s.heap.child c p = old → heap.child c p = node)
    (hkeep : ∀ c p, p ≠ node → (Member lay p → p ≠ old → s.heap.child c p ≠ old) →
      heap.child c p = s.heap.child c p)
    (hparent : heap.parent node = rename old node (s.heap.parent old))
    (hparents : ∀ p, p ≠ node → heap.parent p = s.heap.parent p)
    (hroot : root.prio_tree_node = (lay.rename old node []).getD 0)
    (hbits : root.index_bits = s.root.index_bits) (hstart : heap.start = s.heap.start)
    (hlast : heap.last = s.heap.last) :
    Replace s lay old node ⟨adopt_right (adopt_left heap old node) old node, root⟩ := by
  have hno : old ≠ node := Member.ne ⟨π, hold⟩ hnew
  have hchild : ∀ c, Replaced lay old node (s.heap.child c)
      ((adopt_right (adopt_left heap old node) old node).child c) := fun c =>
    .of_child hno hnew (hself c) (hset c) (hkeep c)
      (by cases c; exacts [adopt_left_left, adopt_right_right])
  have hup : Replaced lay old node s.heap.parent
      (adopt_right (adopt_left heap old node) old node).parent := by
    refine .of_parent hl.hang hold hnew hparent hparents fun x => ?_
    have hsame : ∀ c, heap.child c old = s.heap.child c old := fun c =>
      hkeep c old hno fun _ h => absurd rfl h
    rw [adopt_parent, show heap.left old = s.heap.left old from hsame false,
      show heap.right old = s.heap.right old from hsame true]
  refine ⟨⟨hl.hang.rename hnew hnode ?_ ?_, hroot⟩, hbits, adopt_intervals.1.trans hstart,
    adopt_intervals.2.trans hlast, hup.same, ?_⟩
  · intro c p hp
    exact (hchild c).rename_eq hp
  · intro p hp
    exact hup.rename_eq hp
  intro p hp hne
  exact ⟨(hchild false).frame p hp hne, (hchild true).frame p hp hne, hup.frame p hp hne⟩

/-- **`prio_tree_replace`** puts `node` into the place of `old`. -/
theorem Links.replace :
    ∃ s', prio_tree_replace s old node = some s' ∧ Replace s lay old node s' := by
  have hh := hl.hang
  have hinit : (INIT_PRIO_TREE_NODE s.heap node).parent old = s.heap.parent old :=
    update_of_ne (Member.ne ⟨π, hold⟩ hnew) _ _
  unfold prio_tree_replace prio_tree_root
  simp only [hinit]
  cases π with
  | nil =>
    have hparent : s.heap.parent old = old := hh.top hold
    rw [if_pos (decide_eq_true hparent), if_neg (not_not_intro (hl.root_eq hold))]
    refine ⟨_, rfl, hl.replace_of hold hnew hnode ?_ ?_ ?_ ?_ ?_ ?_ rfl rfl rfl⟩
    · intro c
      rw [child_set_parent, child_init, if_pos rfl]
    · -- No node has the root as its child.
      rintro c p ⟨σ, hσ⟩ hne heq
      cases hh.child_unique hold hσ hne heq
    · intro c p hpn _
      rw [child_set_parent, child_init, if_neg hpn]
    · rw [hparent, rename_self]
      exact update_self ..
    · intro p hpn
      exact (update_of_ne hpn _ _).trans (update_of_ne hpn _ _)
    unfold Layout.rename
    rw [hold]
    exact (rename_self old node).symm
  | cons b π => ?_
  obtain ⟨q, hq, hparent⟩ := hh.exists_parent hold
  have hqo : q ≠ old := (hh.child_ne hq hold).symm
  have hqn : q ≠ node := Member.ne ⟨π, hq⟩ hnew
  have hchild : s.heap.child b q = old := by
    rw [hh.child b hq, hold]
    rfl
  rw [hparent, if_neg (by rw [decide_eq_true_eq]; exact hqo)]
  have hbranch : ∀ t : Heap, t.left q = s.heap.left q →
      (if t.left q = old then set_left t q node else set_right t q node) =
        set_child t b q node := by
    intro t hside
    cases b with
    | false => exact if_pos (hside.trans hchild)
    | true =>
      refine if_neg fun h => ?_
      cases hh.child_unique (c := false) hold hq hqo (hside.symm.trans h)
  rw [hbranch _ (update_of_ne hqn _ _)]
  refine ⟨_, rfl, hl.replace_of hold hnew hnode ?_ ?_ ?_ ?_ ?_ ?_ rfl ?_ ?_⟩
  · intro c
    rw [child_set_child, if_neg fun h => hqn h.2.symm, child_set_parent, child_init, if_pos rfl]
  · rintro c p ⟨σ, hσ⟩ hne heq
    cases hh.child_unique hold hσ hne heq
    rw [hσ, Option.some.injEq] at hq
    rw [child_set_child, if_pos ⟨rfl, hq⟩]
  · intro c p hpn hnot
    rw [child_set_child, if_neg, child_set_parent, child_init, if_neg hpn]
    rintro ⟨rfl, rfl⟩
    exact hnot ⟨π, hq⟩ hqo hchild
  · rw [hparent, rename_of_ne hqo, parent_set_child]
    exact update_self ..
  · intro p hpn
    rw [parent_set_child]
    exact (update_of_ne hpn _ _).trans (update_of_ne hpn _ _)
  · obtain ⟨m, hm⟩ := hh.exists_top hold
    have hmo : m ≠ old := by
      rintro rfl
      cases hh.inj hm hold
    rw [hl.root]
    unfold Layout.rename
    rw [hm]
    exact (rename_of_ne hmo).symm
  · exact (intervals_set_child ..).1
  · exact (intervals_set_child ..).2

end

end replace

/-! ## Leaves -/

section leaf
variable {heap heap' : Heap} {up : Option Nat} {lay : Layout} {π : Pos} {cur node : Nat} {b : Bool}

theorem update_cases {σ : Pos} {x : Option Nat} (h : update lay π x σ = some p) :
    σ = π ∧ x = some p ∨ σ ≠ π ∧ lay σ = some p := by
  by_cases hσ : σ = π
  · rw [hσ, update_self] at h
    exact .inl ⟨hσ, h⟩
  rw [update_of_ne hσ] at h
  exact .inr ⟨hσ, h⟩

/-- Nothing is below a position where there is no node. -/
theorem Hang.none_below (hh : Hang heap up lay) {c : Bool} (hnone : lay π = none) :
    lay (c :: π) = none := by
  by_contra hsome
  exact hh.closed c π hsome hnone

section
variable (hh : Hang heap none lay)
include hh

theorem Hang.attach (hcur : lay π = some cur) (hnone : lay (b :: π) = none)
    (hnew : ¬Member lay node) (hnode : node ≠ 0)
    (hchild : ∀ c p, p ≠ node →
      heap'.child c p = if c = b ∧ p = cur then node else heap.child c p)
    (hself : ∀ c, heap'.child c node = node) (hparent : heap'.parent node = cur)
    (hparents : ∀ p, p ≠ node → heap'.parent p = heap.parent p) :
    Hang heap' none (update lay (b :: π) (some node)) := by
  have hlay : ∀ {σ p}, update lay (b :: π) (some node) σ = some p →
      σ = b :: π ∧ p = node ∨ σ ≠ b :: π ∧ lay σ = some p ∧ p ≠ node := by
    intro σ p h
    rcases update_cases h with ⟨hσ, h⟩ | ⟨hσ, h⟩
    · exact .inl ⟨hσ, (Option.some.inj h).symm⟩
    · exact .inr ⟨hσ, h, Member.ne ⟨σ, h⟩ hnew⟩
  refine .of_child ?_ ?_ ?_ ?_ ?_ ?_
  · intro c σ h
    by_cases hσ : σ = b :: π
    · rw [hσ, update_self]
      exact some_ne_none node
    rw [update_of_ne hσ]
    by_cases hcσ : c :: σ = b :: π
    · cases hcσ
      rw [hcur]
      exact some_ne_none cur
    rw [update_of_ne hcσ] at h
    exact hh.closed c σ h
  · intro σ τ p hσ hτ
    rcases hlay hσ with ⟨rfl, rfl⟩ | ⟨_, hσ', hne⟩
    · rcases hlay hτ with ⟨rfl, _⟩ | ⟨_, _, hne⟩
      · rfl
      · exact absurd rfl hne
    rcases hlay hτ with ⟨_, rfl⟩ | ⟨_, hτ', _⟩
    · exact absurd rfl hne
    · exact hh.inj hσ' hτ'
  · intro σ p hσ
    rcases hlay hσ with ⟨_, rfl⟩ | ⟨_, hσ', _⟩
    · exact hnode
    · exact hh.nonzero hσ'
  · intro c σ p hσ
    rcases hlay hσ with ⟨rfl, rfl⟩ | ⟨hne, hσ', hpn⟩
    · rw [hself, update_of_ne (cons_ne_self _ _), hh.none_below hnone]
      rfl
    rw [hchild c p hpn]
    by_cases hcσ : c :: σ = b :: π
    · obtain ⟨rfl, rfl⟩ := cons.inj hcσ
      rw [hcur, Option.some.injEq] at hσ'
      rw [if_pos ⟨rfl, hσ'.symm⟩, update_self]
      rfl
    rw [if_neg, update_of_ne hcσ]
    · exact hh.child c hσ'
    rintro ⟨rfl, rfl⟩
    exact hcσ (by rw [hh.inj hσ' hcur])
  · intro p hσ
    rcases hlay hσ with ⟨hnil, _⟩ | ⟨_, hσ', hpn⟩
    · cases hnil
    rw [hparents p hpn]
    exact hh.top hσ'
  intro c σ p q hσ hτ
  rcases hlay hτ with ⟨hcσ, rfl⟩ | ⟨_, hτ', hqn⟩
  · obtain ⟨rfl, rfl⟩ := cons.inj hcσ
    rcases hlay hσ with ⟨heq, _⟩ | ⟨_, hσ', _⟩
    · exact absurd heq ne_cons_self
    rw [hcur, Option.some.injEq] at hσ'
    rw [hparent, hσ']
  rw [hparents q hqn]
  rcases hlay hσ with ⟨rfl, _⟩ | ⟨_, hσ', _⟩
  · rw [hh.none_below hnone] at hτ'
    cases hτ'
  exact hh.parent hσ' hτ'

theorem Hang.cut {q : Nat} (hcur : lay (b :: π) = some cur) (hq : lay π = some q)
    (hleaf : ∀ c, lay (c :: b :: π) = none)
    (hchild : ∀ c p, heap'.child c p = if c = b ∧ p = q then q else heap.child c p)
    (hparents : heap'.parent = heap.parent) :
    Hang heap' none (update lay (b :: π) none) := by
  have hlay : ∀ {σ p}, update lay (b :: π) none σ = some p →
      σ ≠ b :: π ∧ lay σ = some p := by
    intro σ p h
    rcases update_cases h with ⟨_, h⟩ | h
    · cases h
    · exact h
  refine .of_child ?_ ?_ ?_ ?_ ?_ ?_
  · intro c σ h
    obtain ⟨p, hp⟩ := ne_none_iff_exists'.mp h
    obtain ⟨_, hp⟩ := hlay hp
    by_cases hσ : σ = b :: π
    · subst hσ
      rw [hleaf c] at hp
      cases hp
    rw [update_of_ne hσ]
    exact hh.closed c σ (by rw [hp]; exact some_ne_none p)
  · intro σ τ p hσ hτ
    exact hh.inj (hlay hσ).2 (hlay hτ).2
  · intro σ p hσ
    exact hh.nonzero (hlay hσ).2
  · intro c σ p hp
    obtain ⟨_, hσ⟩ := hlay hp
    rw [hchild c p]
    by_cases hcσ : c :: σ = b :: π
    · obtain ⟨rfl, rfl⟩ := cons.inj hcσ
      rw [hq, Option.some.injEq] at hσ
      rw [if_pos ⟨rfl, hσ.symm⟩, update_self, hσ]
      rfl
    rw [if_neg, update_of_ne hcσ]
    · exact hh.child c hσ
    rintro ⟨rfl, rfl⟩
    exact hcσ (by rw [hh.inj hσ hq])
  · intro p hσ
    rw [hparents]
    exact hh.top (hlay hσ).2
  intro c σ p q hσ hτ
  rw [hparents]
  exact hh.parent (hlay hσ).2 (hlay hτ).2

/-- `node` becomes the child of `cur`. -/
theorem Hang.attach_node (hcur : lay π = some cur) (hnone : lay (b :: π) = none)
    (hnew : ¬Member lay node) (hnode : node ≠ 0) :
    Hang (set_parent (set_child (INIT_PRIO_TREE_NODE heap node) b cur node) node cur) none
      (update lay (b :: π) (some node)) := by
  have hcn : cur ≠ node := Member.ne ⟨π, hcur⟩ hnew
  refine hh.attach hcur hnone hnew hnode ?_ ?_ ?_ ?_
  · intro c p hp
    rw [child_set_parent, child_set_child, child_init, if_neg hp]
  · intro c
    rw [child_set_parent, child_set_child, child_init, if_neg fun h => hcn h.2.symm, if_pos rfl]
  · exact update_self ..
  intro p hp
  refine (update_of_ne hp _ _).trans ?_
  rw [parent_set_child]
  exact update_of_ne hp _ _

theorem Hang.cut_leaf (hcur : lay (b :: π) = some cur) (hleaf : ∀ c, lay (c :: b :: π) = none) :
    ∃ q, lay π = some q ∧ PrioTree.cut_leaf heap cur = set_child heap b q q ∧
      Hang (PrioTree.cut_leaf heap cur) none (update lay (b :: π) none) := by
  obtain ⟨q, hq, hparent⟩ := hh.exists_parent hcur
  have hside : heap.right q = cur ↔ b = true := by
    constructor
    · intro heq
      cases hh.child_unique (c := true) hcur hq (hh.child_ne hq hcur).symm heq
      rfl
    rintro rfl
    exact hh.right_eq hq hcur
  have hcut : PrioTree.cut_leaf heap cur = set_child heap b q q := by
    unfold PrioTree.cut_leaf
    rw [hparent]
    exact if_congr hside rfl rfl
  refine ⟨q, hq, hcut, ?_⟩
  rw [hcut]
  exact hh.cut hcur hq hleaf (fun c p => child_set_child ..) (parent_set_child ..)

end

end leaf

/-! ## A node on top -/

section top
variable {heap : Heap} {up : Option Nat} {lay : Layout} {p : Nat}

theorem Hang.under (hh : Hang heap (some p) lay) (hnew : ¬Member lay p) (hp : p ≠ 0)
    (hleft : heap.left p = (lay []).getD p) (hright : heap.right p = p)
    (hparent : heap.parent p = up.getD p) : Hang heap up (under p lay) := by
  refine .of_child (hh.closed.under p) ?_ ?_ ?_ ?_ ?_
  · intro σ τ q hσ hτ
    rcases under_cases hσ with ⟨rfl, rfl⟩ | ⟨σ', rfl, hσ'⟩
    · rcases under_cases hτ with ⟨rfl, _⟩ | ⟨τ', rfl, hτ'⟩
      · rfl
      · exact absurd ⟨τ', hτ'⟩ hnew
    rcases under_cases hτ with ⟨_, rfl⟩ | ⟨τ', rfl, hτ'⟩
    · exact absurd ⟨σ', hσ'⟩ hnew
    · rw [hh.inj hσ' hτ']
  · intro σ q hσ
    rcases under_cases hσ with ⟨_, rfl⟩ | ⟨σ', _, hσ'⟩
    · exact hp
    · exact hh.nonzero hσ'
  · intro b σ q hσ
    rcases under_cases hσ with ⟨rfl, rfl⟩ | ⟨σ', rfl, hσ'⟩
    · cases b with
      | false => exact hleft.trans (by rw [show [false] = [] ++ [false] from rfl, under_append_false])
      | true => exact hright.trans (by rw [show [true] = [] ++ [true] from rfl, under_append_true]; rfl)
    rw [hh.child b hσ', ← cons_append, under_append_false]
  · intro q hq
    rw [under_nil, Option.some.injEq] at hq
    rw [← hq]
    exact hparent
  intro b σ q m hσ hτ
  rcases under_cases hσ with ⟨rfl, rfl⟩ | ⟨σ', rfl, hσ'⟩
  · cases b with
    | false =>
      exact hh.top hτ
    | true =>
      cases hτ
  rw [← cons_append, under_append_false] at hτ
  exact hh.parent hσ' hτ

theorem member_under {q : Nat} : Member (under p lay) q ↔ q = p ∨ Member lay q := by
  constructor
  · rintro ⟨σ, hσ⟩
    rcases under_cases hσ with ⟨_, rfl⟩ | ⟨σ', _, hσ'⟩
    · exact .inl rfl
    · exact .inr ⟨σ', hσ'⟩
  rintro (rfl | ⟨σ, hσ⟩)
  · exact ⟨[], under_nil⟩
  · exact ⟨σ ++ [false], by rw [under_append_false]; exact hσ⟩

end top

end Nubernel.PrioTree
