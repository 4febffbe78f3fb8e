import Nubernel.Lib.Word
import Nubernel.Framework.System

/-! # radix-tree: the tree and its operations

Model of `lib/radix-tree.c` (`RADIX_TREE_MAP_SHIFT` is 6, `unsigned long` has
32 bits). A node has 64 slots and, for each of two tags, a bit for each of
them; the tags of the whole tree are kept in its root.

Nodes belong to one parent, so a slot holds its subtree instead of a
pointer. The loops go down by the height of the tree; where the source keeps
the way down in an array and walks it back, the functions here return from
a recursion. A function returns `none` where a `BUG_ON` fires or where
something is used as a node that is none.

Whether `radix_tree_node_alloc` succeeds is said by a list of answers; after
its end there is no memory. Nodes come out of the slab zeroed.
-/

open Function LTS

namespace Nubernel.Radix

/-! ## Data -/

def RADIX_TREE_MAP_SHIFT : Nat := 6
def RADIX_TREE_MAP_MASK : Nat := 63
def RADIX_TREE_INDEX_BITS : Nat := 32
def RADIX_TREE_MAX_PATH : Nat := 6

/-- There are slots and tags; their numbers begin with 0. -/
scoped instance neZeroSlots : NeZero 64 := ⟨by decide⟩

scoped instance neZeroTags : NeZero 2 := ⟨by decide⟩

def ENOMEM : Int := 12
def EEXIST : Int := 17

/-- What a slot points to. A pointer to a node is marked as indirect in the root
of the tree, items never are. -/
inductive Slot where
  | null
  | item (p : Nat)
  /-- `struct radix_tree_node`. -/
  | node (height count : Nat) (slots : Fin 64 → Slot) (tags : Fin 2 → Fin 64 → Bool)

def Slot.isNull : Slot → Bool
  | .null => true
  | _ => false

/-- `struct radix_tree_root`; the tags are bits of `gfp_mask`. -/
structure Root where
  height : Nat
  tags : Fin 2 → Bool
  rnode : Slot

def INIT_RADIX_TREE : Root where
  height := 0
  tags := fun _ => false
  rnode := .null

/-- A node from the slab. -/
def zeroed (height : Nat) : Slot := .node height 0 (fun _ => .null) (fun _ _ => false)

/-- `__maxindex`: the largest index in a tree of the given height. -/
def radix_tree_maxindex (height : Nat) : Nat :=
  let width := height * RADIX_TREE_MAP_SHIFT
  let shift : Int := RADIX_TREE_INDEX_BITS - width
  if shift < 0 then 2 ^ 32 - 1
  else if shift ≥ 32 then 0
  else (2 ^ 32 - 1) >>> shift.toNat

/-- `(index >> shift) & RADIX_TREE_MAP_MASK` in a node of height `h + 1`. -/
def offset (index h : Nat) : Fin 64 :=
  ⟨(index >>> (h * RADIX_TREE_MAP_SHIFT)) &&& RADIX_TREE_MAP_MASK,
    Nat.lt_of_le_of_lt Nat.and_le_right (by decide)⟩

/-- The next answer of `radix_tree_node_alloc`. -/
def radix_tree_node_alloc : List Bool → Bool × List Bool
  | [] => (false, [])
  | ok :: allocs => (ok, allocs)

def setSlot {α : Type} (f : Fin 64 → α) (o : Fin 64) (a : α) : Fin 64 → α := update f o a

/-- One of the tags of a node with another set of bits. -/
def setTag (tags : Fin 2 → Fin 64 → Bool) (tag : Fin 2) (o : Fin 64) (b : Bool) :
    Fin 2 → Fin 64 → Bool :=
  update tags tag (update (tags tag) o b)

def any_tag_set (tags : Fin 2 → Fin 64 → Bool) (tag : Fin 2) : Bool :=
  (List.finRange 64).any (tags tag)

/-! ## Inserting -/

/-- The height that is needed for the index, from `height` on. -/
def extend_height (index : Nat) : Nat → Nat → Nat
  | 0, height => height
  | fuel + 1, height =>
    if index > radix_tree_maxindex height then extend_height index fuel (height + 1) else height

/-- The loop of `radix_tree_extend`, for `fuel` rounds: the tree becomes the first
child of a new node, which gets the tags of the root. -/
def extend_loop : Nat → Root → List Bool → Int × Root × List Bool
  | 0, root, allocs => (0, root, allocs)
  | fuel + 1, root, allocs =>
    match radix_tree_node_alloc allocs with
    | (false, allocs) => (-ENOMEM, root, allocs)
    | (true, allocs) =>
      let node := .node (root.height + 1) 1 (setSlot (fun _ => .null) 0 root.rnode)
        fun tag => setSlot (fun _ => false) 0 (root.tags tag)
      extend_loop fuel { root with height := root.height + 1, rnode := node } allocs

def radix_tree_extend (root : Root) (index : Nat) (allocs : List Bool) :
    Int × Root × List Bool :=
  let height := extend_height index RADIX_TREE_MAX_PATH (root.height + 1)
  if root.rnode.isNull then (0, { root with height := height }, allocs)
  else extend_loop (height - root.height) root allocs

/-- Back in a node of `radix_tree_insert`, with what has become of the slot at
`o`: the node counts it if it has been filled. -/
def fill_slot (h : Nat) (o : Fin 64) (height count : Nat) (slots : Fin 64 → Slot)
    (tags : Fin 2 → Fin 64 → Bool) :
    Option (Int × Slot × List Bool) → Option (Int × Slot × List Bool)
  | none => none
  | some (ret, child, allocs) =>
    let count := if (slots o).isNull && !child.isNull then count + 1 else count
    -- `BUG_ON(tag_get(node, 0, offset))`, and the same for tag 1.
    if h = 0 ∧ ret = 0 ∧ (tags 0 o || tags 1 o) then none
    else some (ret, .node height count (setSlot slots o child) tags, allocs)

/-- The way down of `radix_tree_insert`, from a slot above a subtree of height
`h`: missing nodes are added. -/
def insert_at (index item : Nat) : Nat → Slot → List Bool → Option (Int × Slot × List Bool)
  | 0, .null, allocs => some (0, .item item, allocs)
  | 0, slot, allocs => some (-EEXIST, slot, allocs)
  | h + 1, .null, allocs =>
    match radix_tree_node_alloc allocs with
    | (false, allocs) => some (-ENOMEM, .null, allocs)
    | (true, allocs) =>
      fill_slot h (offset index h) (h + 1) 0 (fun _ => .null) (fun _ _ => false)
        (insert_at index item h .null allocs)
  | h + 1, .node height count slots tags, allocs =>
    fill_slot h (offset index h) height count slots tags
      (insert_at index item h (slots (offset index h)) allocs)
  | _ + 1, .item _, _ => none

def radix_tree_insert (root : Root) (index item : Nat) (allocs : List Bool) :
    Option (Int × Root) :=
  -- `BUG_ON(radix_tree_is_indirect_ptr(item))`.
  if item % 2 = 1 then none
  else
    let (error, root, allocs) :=
      if index > radix_tree_maxindex root.height then radix_tree_extend root index allocs
      else (0, root, allocs)
    if error ≠ 0 then some (error, root)
    else
      match insert_at index item root.height root.rnode allocs with
      | none => none
      | some (ret, rnode, _) =>
        -- `BUG_ON(root_tag_get(root, 0))`, and the same for tag 1.
        if root.height = 0 ∧ ret = 0 ∧ (root.tags 0 || root.tags 1) then none
        else some (ret, { root with rnode := rnode })

/-! ## Looking up -/

/-- The way down to the slot of an index, and what is in it. -/
def find_at (index : Nat) : Nat → Slot → Option (Option Nat)
  | _, .null => some none
  | 0, .item p => some (some p)
  | h + 1, .node _ _ slots _ => find_at index h (slots (offset index h))
  | _, _ => none

def indirect_to_ptr (p : Nat) : Nat := p - p % 2

def radix_tree_lookup (root : Root) (index : Nat) : Option (Option Nat) :=
  match root.rnode with
  | .null => some none
  | .item p => if index > 0 then some none else some (some p)
  | .node height _ _ _ =>
    if index > radix_tree_maxindex height then some none
    else (find_at index height root.rnode).map (Option.map indirect_to_ptr)

/-! ## Tags -/

/-- The way down of `radix_tree_tag_set`. -/
def tag_set_at (tag : Fin 2) (index : Nat) : Nat → Slot → Option (Option Nat × Slot)
  | 0, .null => some (none, .null)
  | 0, .item p => some (some p, .item p)
  | h + 1, .node height count slots tags =>
    let o := offset index h
    -- `BUG_ON(slot == NULL)`.
    if (slots o).isNull then none
    else
      match tag_set_at tag index h (slots o) with
      | none => none
      | some (ret, child) =>
        some (ret, .node height count (setSlot slots o child) (setTag tags tag o true))
  | _, _ => none

def radix_tree_tag_set (root : Root) (index : Nat) (tag : Fin 2) : Option (Option Nat × Root) :=
  -- `BUG_ON(index > radix_tree_maxindex(height))`.
  if index > radix_tree_maxindex root.height then none
  else
    match tag_set_at tag index root.height root.rnode with
    | none => none
    | some (ret, rnode) =>
      some (ret, { root with
        rnode := rnode
        tags := if ret.isSome then update root.tags tag true else root.tags })

/-- The way down of `radix_tree_tag_clear` and back. On the way back the bit is
cleared at each level until one was clear already or another bit of the
node is set; the flag says that it goes on above. -/
def tag_clear_at (tag : Fin 2) (index : Nat) : Nat → Slot → Option (Option Nat × Slot × Bool)
  | _, .null => some (none, .null, false)
  | 0, .item p => some (some p, .item p, true)
  | h + 1, .node height count slots tags =>
    let o := offset index h
    match tag_clear_at tag index h (slots o) with
    | none => none
    | some (ret, child, go_on) =>
      if !go_on || !tags tag o then
        some (ret, .node height count (setSlot slots o child) tags, false)
      else
        let tags := setTag tags tag o false
        some (ret, .node height count (setSlot slots o child) tags, !any_tag_set tags tag)
  | _, _ => none

def radix_tree_tag_clear (root : Root) (index : Nat) (tag : Fin 2) :
    Option (Option Nat × Root) :=
  if index > radix_tree_maxindex root.height then some (none, root)
  else
    match tag_clear_at tag index root.height root.rnode with
    | none => none
    | some (ret, rnode, go_on) =>
      some (ret, { root with
        rnode := rnode
        tags := if go_on then update root.tags tag false else root.tags })

/-- The bit of an index in the lowest node. -/
def tag_get_at (tag : Fin 2) (index : Nat) : Nat → Slot → Option Bool
  | _, .null => some false
  | 1, .node _ _ _ tags => some (tags tag (offset index 0))
  | h + 2, .node _ _ slots _ => tag_get_at tag index (h + 1) (slots (offset index (h + 1)))
  | _, _ => none

def radix_tree_tag_get (root : Root) (index : Nat) (tag : Fin 2) : Option Bool :=
  if !root.tags tag then some false
  else
    match root.rnode with
    | .null => some false
    | .item _ => some (decide (index = 0))
    | .node height _ _ _ =>
      if index > radix_tree_maxindex height then some false
      else tag_get_at tag index height root.rnode

def radix_tree_tagged (root : Root) (tag : Fin 2) : Bool := root.tags tag

/-! ## Deleting -/

/-- The slot of a node that is no longer needed forces lookups to retry. -/
def mark_indirect : Slot → Slot
  | .item p => .item (p ||| 1)
  | slot => slot

/-- The loop of `radix_tree_shrink`: as long as the root has nothing but its first
child, this becomes the root. The last part of the result are the nodes
that are freed. -/
def shrink_loop : Nat → Slot → Option (Nat × Slot × List Slot)
  | 0, rnode => some (0, rnode, [])
  | h + 1, .node height count slots tags =>
    if count ≠ 1 then some (h + 1, .node height count slots tags, [])
    else if (slots 0).isNull then some (h + 1, .node height count slots tags, [])
    else
      let freed := if h = 0 then setSlot slots 0 (mark_indirect (slots 0)) else slots
      match shrink_loop h (slots 0) with
      | none => none
      | some (height', rnode, frees) =>
        some (height', rnode, .node height count freed tags :: frees)
  -- `BUG_ON(!radix_tree_is_indirect_ptr(to_free))`.
  | _ + 1, _ => none

def radix_tree_shrink (root : Root) : Option (Root × List Slot) :=
  match shrink_loop root.height root.rnode with
  | none => none
  | some (height, rnode, frees) => some ({ root with height := height, rnode := rnode }, frees)

/-- The way back of `radix_tree_delete`: the slot is emptied, and with it each
node that has no other. The flag says that the slot of the node above is
to be emptied or its count has become less; then the nodes that are
freed. -/
def unlink_at (index : Nat) : Nat → Slot → Option (Slot × Bool × List Slot)
  | 0, .item _ => some (.null, true, [])
  | h + 1, .node height count slots tags =>
    let o := offset index h
    match unlink_at index h (slots o) with
    | none => none
    | some (child, _, frees) =>
      if !child.isNull then
        some (.node height count (setSlot slots o child) tags, false, frees)
      else
        let count := sub32 count 1
        let node := .node height count (setSlot slots o .null) tags
        if count ≠ 0 then some (node, true, frees)
        else some (.null, true, frees ++ [node])
  | _, _ => none

/-- The tags of the item are cleared, one after the other. -/
def clear_tags (index : Nat) : List (Fin 2) → Root → Option Root
  | [], root => some root
  | tag :: rest, root =>
    match tag_get_at tag index root.height root.rnode with
    | none => none
    | some false => clear_tags index rest root
    | some true =>
      match radix_tree_tag_clear root index tag with
      | none => none
      | some (_, root) => clear_tags index rest root

/-- The item, the tree, and the nodes that are freed. -/
def radix_tree_delete (root : Root) (index : Nat) :
    Option (Option Nat × Root × List Slot) :=
  if index > radix_tree_maxindex root.height then some (none, root, [])
  else if root.height = 0 then
    match find_at index 0 root.rnode with
    | none => none
    | some slot => some (slot, { root with tags := fun _ => false, rnode := .null }, [])
  else
    match find_at index root.height root.rnode with
    | none => none
    | some none => some (none, root, [])
    | some (some p) =>
      match clear_tags index [0, 1] root with
      | none => none
      | some root =>
        match unlink_at index root.height root.rnode with
        | none => none
        | some (.null, _, frees) =>
          some (some p, { height := 0, tags := fun _ => false, rnode := .null }, frees)
        | some (rnode, false, frees) => some (some p, { root with rnode := rnode }, frees)
        | some (rnode, true, frees) =>
          match radix_tree_shrink { root with rnode := rnode } with
          | none => none
          | some (root, frees') => some (some p, root, frees ++ frees')

/-- What `radix_tree_node_rcu_free` gives back to the slab. -/
def radix_tree_node_rcu_free : Slot → Slot
  | .node height _ slots tags =>
    .node height 0 (setSlot slots 0 .null) (setTag (setTag tags 0 0 false) 1 0 false)
  | slot => slot

end Nubernel.Radix
