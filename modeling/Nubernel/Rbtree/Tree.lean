import Mathlib.Data.List.Basic

/-! # Red-black trees

Model of `lib/rbtree.c` on trees without parent pointers. A position in
a tree is a `Path` from there up to the root, so that the loops of
`rb_insert_color` and `__rb_erase_color`, which follow parent pointers,
are recursions on the path.

Users of the trees link new nodes at the end of a search of their own
and erase nodes they have a pointer to (`rb_insert`, `rb_erase`). The
results of this module say what that does to the in-order sequence.
-/

namespace Nubernel.Rbtree

/-! ## Trees and positions -/

inductive Color where
  | red | black
  deriving DecidableEq, Repr

inductive Tree (α : Type) where
  | leaf
  | node (c : Color) (l : Tree α) (x : α) (r : Tree α)
  deriving DecidableEq, Repr

/-- The way from a subtree up to the root: the subtree is the left or the
right child of a node. -/
inductive Path (α : Type) where
  | root
  | left (c : Color) (x : α) (r : Tree α) (up : Path α)
  | right (c : Color) (l : Tree α) (x : α) (up : Path α)
  deriving DecidableEq, Repr

variable {α : Type}

def Tree.toList : Tree α → List α
  | .leaf => []
  | .node _ l x r => l.toList ++ x :: r.toList

/-- The nodes before a position, in order. -/
def Path.before : Path α → List α
  | .root => []
  | .left _ _ _ up => up.before
  | .right _ l x up => up.before ++ (l.toList ++ [x])

/-- The nodes after a position, in order. -/
def Path.after : Path α → List α
  | .root => []
  | .left _ x r up => x :: r.toList ++ up.after
  | .right _ _ _ up => up.after

/-- The tree with `t` at a position. -/
def Path.plug : Path α → Tree α → Tree α
  | .root, t => t
  | .left c x r up, t => up.plug (.node c t x r)
  | .right c l x up, t => up.plug (.node c l x t)

def Tree.is_red : Tree α → Bool
  | .node .red _ _ _ => true
  | _ => false

def Tree.set_black : Tree α → Tree α
  | .leaf => .leaf
  | .node _ l x r => .node .black l x r

def Tree.set_red : Tree α → Tree α
  | .leaf => .leaf
  | .node _ l x r => .node .red l x r

/-! ## Insertion -/

/-- `rb_insert_color` for the red node `t`. A rotation ends the loop, since
the parent is black then. Without a grandparent a red parent would be
the root. -/
def rb_insert_color (t : Tree α) : Path α → Tree α
  | .left .red x r (.left _ y uncle up) =>
    if uncle.is_red then
      rb_insert_color (.node .red (.node .black t x r) y uncle.set_black) up
    else (up.plug (.node .black t x (.node .red r y uncle))).set_black
  | .right .red l x (.left c y uncle up) =>
    if uncle.is_red then
      rb_insert_color (.node .red (.node .black l x t) y uncle.set_black) up
    else
      match t with
      | .node _ tl z tr =>
        (up.plug (.node .black (.node .red l x tl) z (.node .red tr y uncle))).set_black
      | .leaf => (up.plug (.node c (.node .red l x t) y uncle)).set_black
  | .right .red l x (.right _ uncle y up) =>
    if uncle.is_red then
      rb_insert_color (.node .red uncle.set_black y (.node .black l x t)) up
    else (up.plug (.node .black (.node .red uncle y l) x t)).set_black
  | .left .red x r (.right c uncle y up) =>
    if uncle.is_red then
      rb_insert_color (.node .red uncle.set_black y (.node .black t x r)) up
    else
      match t with
      | .node _ tl z tr =>
        (up.plug (.node .black (.node .red uncle y tl) z (.node .red tr x r))).set_black
      | .leaf => (up.plug (.node c uncle y (.node .red t x r))).set_black
  | path => (path.plug t).set_black

/-- The search for the place of a new node: to the left of the nodes for
which `go_left` holds. -/
def search (go_left : α → Bool) : Tree α → Path α → Path α
  | .leaf, path => path
  | .node c l x r, path =>
    if go_left x then search go_left l (.left c x r path)
    else search go_left r (.right c l x path)

/-- The nodes that the search compares with. -/
def visited (go_left : α → Bool) : Tree α → List α
  | .leaf => []
  | .node _ l x r => x :: if go_left x then visited go_left l else visited go_left r

/-- `rb_link_node` and `rb_insert_color`. -/
def rb_insert (go_left : α → Bool) (x : α) (t : Tree α) : Tree α :=
  rb_insert_color (.node .red .leaf x .leaf) (search go_left t .root)

/-! ## Deletion -/

/-- One round of `__rb_erase_color` at a left child `t` with a black sibling:
the new subtree, and whether the loop goes on with it. The sibling is
not `NULL`, as a black node was taken from this side. -/
def fix_left (c : Color) (t : Tree α) (x : α) (other : Tree α) : Tree α × Bool :=
  match other with
  | .node _ ol y or =>
    if !ol.is_red && !or.is_red then (.node c t x other.set_red, true)
    else if !or.is_red then
      match ol with
      | .node _ oll z olr =>
        (.node c (.node .black t x oll) z (.node .black olr y or), false)
      | .leaf => (.node c t x other, false)
    else (.node c (.node .black t x ol) y or.set_black, false)
  | .leaf => (.node c t x other, false)

/-- The same at a right child. -/
def fix_right (c : Color) (other : Tree α) (x : α) (t : Tree α) : Tree α × Bool :=
  match other with
  | .node _ ol y or =>
    if !ol.is_red && !or.is_red then (.node c other.set_red x t, true)
    else if !ol.is_red then
      match or with
      | .node _ orl z orr =>
        (.node c (.node .black ol y orl) z (.node .black orr x t), false)
      | .leaf => (.node c other x t, false)
    else (.node c ol.set_black y (.node .black or x t), false)
  | .leaf => (.node c other x t, false)

/-- `__rb_erase_color`. A red sibling is rotated up first; the parent is
red then, so that the loop ends behind it. -/
def rb_erase_color (t : Tree α) : Path α → Tree α
  | .root => t.set_black
  | .left c x other up =>
    if t.is_red then (Path.left c x other up).plug t.set_black
    else
      match other with
      | .node .red ol y or =>
        let r := fix_left .red t x ol
        if r.2 then (Path.left .black y or up).plug r.1.set_black
        else ((Path.left .black y or up).plug r.1).set_black
      | _ =>
        let r := fix_left c t x other
        if r.2 then rb_erase_color r.1 up else (up.plug r.1).set_black
  | .right c other x up =>
    if t.is_red then (Path.right c other x up).plug t.set_black
    else
      match other with
      | .node .red ol y or =>
        let r := fix_right .red or x t
        if r.2 then (Path.right .black ol y up).plug r.1.set_black
        else ((Path.right .black ol y up).plug r.1).set_black
      | _ =>
        let r := fix_right c other x t
        if r.2 then rb_erase_color r.1 up else (up.plug r.1).set_black

/-- The leftmost node of a tree: its color, its right child and its position,
which may depend on what it holds. -/
def leftmost : Tree α → (α → Path α) → Option (Color × Tree α × Path α)
  | .leaf, _ => none
  | .node c .leaf y r, path => some (c, r, path y)
  | .node c l x r, path => leftmost l fun y => .left c x r (path y)

/-- The child of a node takes its place; `c` is the color that is lost. -/
def replace_by_child (c : Color) (child : Tree α) (path : Path α) : Tree α :=
  if c = .black then rb_erase_color child path else path.plug child

/-- The node at a position, with the children `l` and `r`, is taken out. -/
def erase_at [DecidableEq α] (c : Color) (l : Tree α) (r : Tree α) (path : Path α) : Tree α :=
  if l = .leaf then replace_by_child c r path
  else
    -- the successor takes the place and the color of the node
    match leftmost r fun y => .right c l y path with
    | none => replace_by_child c l path
    | some (cy, child, path') => replace_by_child cy child path'

/-- The position of the node that holds `x`. -/
def find [DecidableEq α] (x : α) : Tree α → Path α → Option (Color × Tree α × Tree α × Path α)
  | .leaf, _ => none
  | .node c l y r, path =>
    if y = x then some (c, l, r, path)
    else (find x l (.left c y r path)).orElse fun _ => find x r (.right c l y path)

/-- `rb_erase` of the node that holds `x`. -/
def rb_erase [DecidableEq α] (x : α) (t : Tree α) : Tree α :=
  match find x t .root with
  | none => t
  | some (c, l, r, path) => erase_at c l r path

/-! ## The in-order sequence -/

@[simp] theorem toList_leaf : (Tree.leaf : Tree α).toList = [] := by
  rw [Tree.toList]

@[simp] theorem toList_node (c : Color) (l : Tree α) (x : α) (r : Tree α) :
    (Tree.node c l x r).toList = l.toList ++ x :: r.toList := rfl

@[simp] theorem set_black_toList (t : Tree α) : t.set_black.toList = t.toList := by
  cases t with
  | leaf => rfl
  | node c l x r => rfl

@[simp] theorem plug_toList (path : Path α) (t : Tree α) :
    (path.plug t).toList = path.before ++ (t.toList ++ path.after) := by
  induction path generalizing t with
  | root => simp [Path.plug, Path.before, Path.after]
  | left c x r up ih | right c l x up ih => simp [Path.plug, Path.before, Path.after, ih]

/-- Recoloring and rotations keep the sequence. -/
theorem rb_insert_color_toList (t : Tree α) (path : Path α) :
    (rb_insert_color t path).toList = path.before ++ (t.toList ++ path.after) := by
  fun_induction rb_insert_color t path with
  | case1 t x r c y uncle up _ ih | case3 t l x c y uncle up _ ih
  | case6 t l x c uncle y up _ ih | case8 t x r c uncle y up _ ih =>
    simp [ih, Path.before, Path.after]
  | case2 t x r c y uncle up _ | case4 l x c y uncle up c' tl z tr _ | case5 l x c y uncle up _
  | case7 t l x c uncle y up _ | case9 x r c uncle y up c' tl z tr _ | case10 x r c uncle y up _ =>
    simp [Path.before, Path.after]
  | case11 t path => simp

theorem fix_left_toList (c : Color) (t : Tree α) (x : α) (other : Tree α) :
    (fix_left c t x other).1.toList = t.toList ++ x :: other.toList := by
  fun_cases fix_left c t x other <;> simp [Tree.set_red]

theorem fix_right_toList (c : Color) (other : Tree α) (x : α) (t : Tree α) :
    (fix_right c other x t).1.toList = other.toList ++ x :: t.toList := by
  fun_cases fix_right c other x t <;> simp [Tree.set_red]

theorem rb_erase_color_toList (t : Tree α) (path : Path α) :
    (rb_erase_color t path).toList = path.before ++ (t.toList ++ path.after) := by
  induction path generalizing t with
  | root => simp [rb_erase_color, Path.before, Path.after]
  | left c x other up ih | right c other x up ih =>
    unfold rb_erase_color
    split
    · simp
    split
    · simp only
      split <;> simp [Path.before, Path.after, fix_left_toList, fix_right_toList]
    simp only
    split <;> simp [ih, Path.before, Path.after, fix_left_toList, fix_right_toList]

theorem replace_by_child_toList (c : Color) (child : Tree α) (path : Path α) :
    (replace_by_child c child path).toList = path.before ++ (child.toList ++ path.after) := by
  unfold replace_by_child
  split
  · exact rb_erase_color_toList child path
  · exact plug_toList path child

variable {t : Tree α} {path : α → Path α} {c : Color} {path' : Path α} {x : α} {go_left : α → Bool}

/-- The leftmost node holds the first element of the sequence. -/
theorem leftmost_spec {child : Tree α} (h : leftmost t path = some (c, child, path')) :
    ∃ y rest, t.toList = y :: rest ∧ path'.before = (path y).before ∧
      child.toList ++ path'.after = rest ++ (path y).after := by
  fun_induction leftmost t path with
  | case1 path => cases h
  | case2 c y r path =>
    cases h
    exact ⟨y, _, rfl, rfl, rfl⟩
  | case3 c l x r path hl ih =>
    obtain ⟨y, rest, hlist, hbefore, hafter⟩ := ih h
    refine ⟨y, rest ++ x :: r.toList, ?_, hbefore, ?_⟩
    · rw [toList_node, hlist]
      rfl
    rw [hafter]
    simp [Path.after]

theorem leftmost_none (h : leftmost t path = none) :
    t = .leaf := by
  fun_induction leftmost t path with
  | case1 path => rfl
  | case2 c y r path => cases h
  | case3 c l x r path hl ih => exact absurd (ih h) hl

/-- A node is taken out and the others stay in their order. -/
theorem erase_at_toList [DecidableEq α] (c : Color) (l r : Tree α) (path : Path α) :
    (erase_at c l r path).toList = path.before ++ (l.toList ++ (r.toList ++ path.after)) := by
  unfold erase_at
  split
  · rename_i hl
    rw [replace_by_child_toList, hl]
    rfl
  split
  · rename_i hnone
    rw [replace_by_child_toList, leftmost_none hnone]
    rfl
  rename_i cy child path' hsome
  obtain ⟨y, rest, hlist, hbefore, hafter⟩ := leftmost_spec hsome
  rw [replace_by_child_toList, hbefore, hafter, hlist]
  simp [Path.before, Path.after]

theorem find_some [DecidableEq α] {l r : Tree α} {path : Path α}
    (h : find x t path = some (c, l, r, path')) :
    path'.before ++ (l.toList ++ x :: (r.toList ++ path'.after)) =
      path.before ++ (t.toList ++ path.after) := by
  induction t generalizing path with
  | leaf => cases h
  | node c' l' y r' ihl ihr => ?_
  unfold find at h
  split at h
  · rename_i hy
    cases h
    simp [hy]
  rw [Option.orElse_eq_or, Option.or_eq_some_iff] at h
  rcases h with h | ⟨_, h⟩
  · rw [ihl h]
    simp [Path.before, Path.after]
  rw [ihr h]
  simp [Path.before, Path.after]

theorem find_isSome [DecidableEq α] (path : Path α) (h : x ∈ t.toList) :
    (find x t path).isSome := by
  induction t generalizing path with
  | leaf => cases h
  | node c l y r ihl ihr => ?_
  unfold find
  split
  · rfl
  rename_i hy
  simp only [toList_node, List.mem_append, List.mem_cons] at h
  rw [Option.orElse_eq_or, Option.isSome_or, Bool.or_eq_true]
  rcases h with h | h | h
  · exact .inl (ihl _ h)
  · exact absurd h.symm hy
  · exact .inr (ihr _ h)

/-- **Erasing** takes one node out of the sequence. -/
theorem rb_erase_toList [DecidableEq α] (h : x ∈ t.toList) :
    ∃ pre post, t.toList = pre ++ x :: post ∧ (rb_erase x t).toList = pre ++ post := by
  unfold rb_erase
  cases hf : find x t .root with
  | none =>
    have := find_isSome .root h
    rw [hf] at this
    cases this
  | some found =>
    obtain ⟨c, l, r, path⟩ := found
    have heq := find_some hf
    refine ⟨path.before ++ l.toList, r.toList ++ path.after, ?_, ?_⟩
    · simpa [Path.before, Path.after] using heq.symm
    rw [erase_at_toList]
    simp

theorem mem_of_visited (h : x ∈ visited go_left t) :
    x ∈ t.toList := by
  induction t with
  | leaf => cases h
  | node c l y r ihl ihr =>
    simp only [toList_node, List.mem_append, List.mem_cons]
    rcases List.mem_cons.mp h with h | h
    · exact .inr (.inl h)
    split at h
    · exact .inl (ihl h)
    · exact .inr (.inr (ihr h))

/-- Where the search ends, if all nodes to the left of are before those to
the right of. -/
theorem search_spec (path : Path α)
    (h : t.toList.Pairwise fun a b => go_left a = true → go_left b = true) :
    (search go_left t path).before = path.before ++ t.toList.filter (fun a => !go_left a) ∧
    (search go_left t path).after = t.toList.filter go_left ++ path.after := by
  induction t generalizing path with
  | leaf => simp [search]
  | node c l x r ihl ihr => ?_
  simp only [toList_node, List.pairwise_append, List.pairwise_cons] at h
  obtain ⟨hl, ⟨hxr, hr⟩, hlr⟩ := h
  unfold search
  split
  · rename_i hx
    have hright : ∀ b ∈ r.toList, go_left b = true := fun b hb => hxr b hb hx
    obtain ⟨hb, ha⟩ := ihl (.left c x r path) hl
    rw [hb, ha]
    have h1 : r.toList.filter (fun a => !go_left a) = [] := by
      simpa [List.filter_eq_nil_iff] using hright
    have h2 : r.toList.filter go_left = r.toList := List.filter_eq_self.mpr hright
    simp [Path.before, Path.after, hx, h1, h2]
  rename_i hx
  have hleft : ∀ a ∈ l.toList, go_left a = false := by
    intro a ha
    by_contra hcon
    exact hx (hlr a ha x (by simp) (by simpa using hcon))
  obtain ⟨hb, ha⟩ := ihr (.right c l x path) hr
  rw [hb, ha]
  have h1 : l.toList.filter go_left = [] := by
    simpa [List.filter_eq_nil_iff] using hleft
  have h2 : l.toList.filter (fun a => !go_left a) = l.toList := by
    apply List.filter_eq_self.mpr
    intro a ha
    simp [hleft a ha]
  simp [Path.before, Path.after, hx, h1, h2]

/-- **Inserting** adds one node where the search leads. -/
theorem rb_insert_toList (h : t.toList.Pairwise fun a b => go_left a = true → go_left b = true) :
    (rb_insert go_left x t).toList =
      t.toList.filter (fun a => !go_left a) ++ x :: t.toList.filter go_left := by
  unfold rb_insert
  obtain ⟨hb, ha⟩ := search_spec .root h
  rw [rb_insert_color_toList, hb, ha]
  simp [Path.before, Path.after]

end Nubernel.Rbtree
