import Nubernel.Lib.Word

/-! # Priority search trees

Model of `lib/prio_tree.c` for 32-bit `unsigned long` and roots with `raw == 0`.
A tree of intervals: going down, the intervals end earlier and earlier (a heap
in `last`), and at each level one more bit decides between left and right, first
the bits of `start`, then those of the size.

Nodes are addressed by their pointers, 0 is NULL. A node that has no child
on a side points to itself there, and so does the parent pointer of the root.

The loops count down `fuel`. A result `none` means that a `BUG` has been hit
or that the fuel has not been enough.
-/

namespace Nubernel.PrioTree

/-! ## Data -/

def BITS_PER_LONG : Nat := 32
def ULONG_MAX : Nat := 2 ^ 32 - 1

/-- The fields of `struct prio_tree_node`, for all nodes. -/
structure Heap where
  left : Nat → Nat
  right : Nat → Nat
  parent : Nat → Nat
  start : Nat → Nat
  last : Nat → Nat

/-- `struct prio_tree_root`. -/
structure Root where
  prio_tree_node : Nat
  index_bits : Nat
deriving DecidableEq

structure State where
  heap : Heap
  root : Root

def set_left (heap : Heap) (p v : Nat) : Heap :=
  { heap with left := Function.update heap.left p v }

def set_right (heap : Heap) (p v : Nat) : Heap :=
  { heap with right := Function.update heap.right p v }

def set_parent (heap : Heap) (p v : Nat) : Heap :=
  { heap with parent := Function.update heap.parent p v }

def INIT_PRIO_TREE_ROOT : Root := { prio_tree_node := 0, index_bits := 1 }

def INIT_PRIO_TREE_NODE (heap : Heap) (p : Nat) : Heap :=
  set_parent (set_right (set_left heap p p) p p) p p

def prio_tree_empty (s : State) : Bool := s.root.prio_tree_node = 0
def prio_tree_root (heap : Heap) (p : Nat) : Bool := heap.parent p = p
def prio_tree_left_empty (heap : Heap) (p : Nat) : Bool := heap.left p = p
def prio_tree_right_empty (heap : Heap) (p : Nat) : Bool := heap.right p = p

/-- The table that `prio_tree_init` sets up. -/
def index_bits_to_maxindex (i : Nat) : Nat :=
  if i < BITS_PER_LONG - 1 then 2 ^ (i + 1) - 1 else ULONG_MAX

def prio_tree_maxindex (bits : Nat) : Nat := index_bits_to_maxindex (bits - 1)

/-- More levels than a tree has: at most 32 for the bits of `start`, 32 for those of
the size, and one below. -/
def LEVELS : Nat := 66

/-! ## Updates -/

/-- The left child of `old` gets `node` as its parent. -/
def adopt_left (heap : Heap) (old node : Nat) : Heap :=
  if prio_tree_left_empty heap old then heap
  else set_parent (set_left heap node (heap.left old)) (heap.left old) node

def adopt_right (heap : Heap) (old node : Nat) : Heap :=
  if prio_tree_right_empty heap old then heap
  else set_parent (set_right heap node (heap.right old)) (heap.right old) node

/-- The place of `old` in the tree is taken by `node`. -/
def prio_tree_replace (s : State) (old node : Nat) : Option State :=
  let heap := INIT_PRIO_TREE_NODE s.heap node
  if prio_tree_root heap old then
    if s.root.prio_tree_node ≠ old then none
    else
      let heap := set_parent heap node node
      some {
        heap := adopt_right (adopt_left heap old node) old node
        root := { s.root with prio_tree_node := node } }
  else
    let parent := heap.parent old
    let heap := set_parent heap node parent
    let heap :=
      if heap.left parent = old then set_left heap parent node else set_right heap parent node
    some { s with heap := adopt_right (adopt_left heap old node) old node }

/-- The first loop of `prio_tree_remove`: down to a leaf, always to the child that
ends later. -/
def find_leaf : Nat → Heap → Nat → Option Nat
  | 0, _, _ => none
  | fuel + 1, heap, cur =>
    if prio_tree_left_empty heap cur ∧ prio_tree_right_empty heap cur then some cur
    else if prio_tree_left_empty heap cur then find_leaf fuel heap (heap.right cur)
    else if prio_tree_right_empty heap cur then find_leaf fuel heap (heap.left cur)
    else if heap.last (heap.left cur) ≥ heap.last (heap.right cur) then
      find_leaf fuel heap (heap.left cur)
    else find_leaf fuel heap (heap.right cur)

/-- The second loop of `prio_tree_remove`: each node on the way up to `node` takes
the place of its parent. -/
def move_up : Nat → State → Nat → Nat → Option State
  | 0, _, _, _ => none
  | fuel + 1, s, cur, node =>
    if cur = node then some s
    else
      match prio_tree_replace s (s.heap.parent cur) cur with
      | none => none
      | some s' => move_up fuel s' (s.heap.parent cur) node

/-- A leaf is cut off. -/
def cut_leaf (heap : Heap) (cur : Nat) : Heap :=
  let parent := heap.parent cur
  if heap.right parent = cur then set_right heap parent parent else set_left heap parent parent

def prio_tree_remove (s : State) (node : Nat) : Option State :=
  match find_leaf LEVELS s.heap node with
  | none => none
  | some cur =>
    if prio_tree_root s.heap cur then
      if s.root.prio_tree_node ≠ cur then none else some { s with root := INIT_PRIO_TREE_ROOT }
    else move_up LEVELS { s with heap := cut_leaf s.heap cur } cur node

/-- The loop of `prio_tree_expand`. The nodes from `first` to `last` are those that
have been taken out of the tree. -/
def expand_loop : Nat → State → Nat → Nat → Nat → Option (State × Nat × Nat)
  | 0, _, _, _, _ => none
  | fuel + 1, s, first, last, max_heap_index =>
    if max_heap_index > prio_tree_maxindex s.root.index_bits then
      let s := { s with root := { s.root with index_bits := s.root.index_bits + 1 } }
      if prio_tree_empty s then expand_loop fuel s first last max_heap_index
      else
        let top := s.root.prio_tree_node
        match prio_tree_remove s top with
        | none => none
        | some s =>
          let heap := INIT_PRIO_TREE_NODE s.heap top
          if first = 0 then expand_loop fuel { s with heap := heap } top top max_heap_index
          else
            let heap := set_parent (set_left heap last top) top last
            expand_loop fuel { s with heap := heap } first top max_heap_index
    else some (s, first, last)

/-- The end of `prio_tree_expand`: `node` becomes the root, above the nodes that have
been taken out and what is left of the tree. -/
def put_on_top (s : State) (node first last : Nat) : State :=
  let heap := INIT_PRIO_TREE_NODE s.heap node
  let heap := if first ≠ 0 then set_parent (set_left heap node first) first node else heap
  let last := if first ≠ 0 then last else node
  let heap :=
    if s.root.prio_tree_node ≠ 0 then
      set_parent (set_left heap last s.root.prio_tree_node) s.root.prio_tree_node last
    else heap
  { heap := heap, root := { s.root with prio_tree_node := node } }

def prio_tree_expand (s : State) (node max_heap_index : Nat) : Option State :=
  let bits := s.root.index_bits
  let bits := if max_heap_index > prio_tree_maxindex bits then bits + 1 else bits
  let s := { s with root := { s.root with index_bits := bits } }
  (expand_loop LEVELS s 0 0 max_heap_index).map fun (s, first, last) =>
    put_on_top s node first last

/-- The local variables of `prio_tree_insert`. -/
structure Insert where
  cur : Nat
  node : Nat
  radix_index : Nat
  heap_index : Nat
  mask : Nat
  size_flag : Bool

/-- Where the node belongs above `cur`, the two are exchanged. -/
def exchange (s : State) (v : Insert) : Option (State × Insert) :=
  let r_index := s.heap.start v.cur
  let h_index := s.heap.last v.cur
  if h_index < v.heap_index ∨ h_index = v.heap_index ∧ r_index > v.radix_index then
    match prio_tree_replace s v.cur v.node with
    | none => none
    | some s => some (s, { v with
        cur := v.node, node := v.cur, radix_index := r_index, heap_index := h_index })
  else some (s, v)

/-- Down to a child, with the next bit. -/
def Insert.down (v : Insert) (child : Nat) : Insert :=
  let v := { v with cur := child, mask := v.mask >>> 1 }
  if v.mask = 0 then { v with mask := 2 ^ (BITS_PER_LONG - 1), size_flag := true } else v

def insert_loop : Nat → State → Nat → Insert → Option (Nat × State)
  | 0, _, _, _ => none
  | fuel + 1, s, res, v =>
    -- `BUG()`
    if v.mask = 0 then none
    else if s.heap.start v.cur = v.radix_index ∧ s.heap.last v.cur = v.heap_index then
      some (v.cur, s)
    else
      match exchange s v with
      | none => none
      | some (s, v) =>
        let index := if v.size_flag then sub32 v.heap_index v.radix_index else v.radix_index
        if index &&& v.mask ≠ 0 then
          if prio_tree_right_empty s.heap v.cur then
            let heap := INIT_PRIO_TREE_NODE s.heap v.node
            some (res, { s with heap := set_parent (set_right heap v.cur v.node) v.node v.cur })
          else insert_loop fuel s res (v.down (s.heap.right v.cur))
        else
          if prio_tree_left_empty s.heap v.cur then
            let heap := INIT_PRIO_TREE_NODE s.heap v.node
            some (res, { s with heap := set_parent (set_left heap v.cur v.node) v.node v.cur })
          else insert_loop fuel s res (v.down (s.heap.left v.cur))

/-- The node that is returned, and the tree. -/
def prio_tree_insert (s : State) (node : Nat) : Option (Nat × State) :=
  let radix_index := s.heap.start node
  let heap_index := s.heap.last node
  if prio_tree_empty s ∨ heap_index > prio_tree_maxindex s.root.index_bits then
    (prio_tree_expand s node heap_index).map fun s => (node, s)
  else
    insert_loop LEVELS s node
      { cur := s.root.prio_tree_node, node := node, radix_index := radix_index,
        heap_index := heap_index, mask := 2 ^ (s.root.index_bits - 1), size_flag := false }

/-! ## Queries -/

/-- `struct prio_tree_iter`. -/
structure Iter where
  cur : Nat
  mask : Nat
  value : Nat
  size_level : Nat
  r_index : Nat
  h_index : Nat
deriving DecidableEq

def prio_tree_iter_init (r_index h_index : Nat) : Iter :=
  { cur := 0, mask := 0, value := 0, size_level := 0, r_index := r_index, h_index := h_index }

def INIT_PRIO_TREE_ITER (iter : Iter) : Iter :=
  { iter with cur := 0, mask := 0, value := 0, size_level := 0 }

/-- The common part of `prio_tree_left` and `prio_tree_right`: down to a child. -/
def descend (heap : Heap) (iter : Iter) (child : Nat) : Option Iter :=
  let iter := { iter with cur := child, mask := iter.mask >>> 1 }
  if iter.mask ≠ 0 then
    some (if iter.size_level ≠ 0 then { iter with size_level := iter.size_level + 1 } else iter)
  else if iter.size_level ≠ 0 then
    -- The two `BUG_ON`s.
    if prio_tree_left_empty heap iter.cur ∧ prio_tree_right_empty heap iter.cur then
      some { iter with size_level := iter.size_level + 1, mask := ULONG_MAX }
    else none
  else some { iter with size_level := 1, mask := 2 ^ (BITS_PER_LONG - 1) }

/-- What `prio_tree_left` and `prio_tree_right` return: whether they have gone down, and
the iterator. -/
abbrev Move := Option (Bool × Iter)

def prio_tree_left (heap : Heap) (iter : Iter) : Move :=
  if prio_tree_left_empty heap iter.cur then some (false, iter)
  else if iter.r_index ≤ heap.last (heap.left iter.cur) then
    (descend heap iter (heap.left iter.cur)).map fun iter => (true, iter)
  else some (false, iter)

def prio_tree_right (heap : Heap) (iter : Iter) : Move :=
  if prio_tree_right_empty heap iter.cur then some (false, iter)
  else
    let value := if iter.size_level ≠ 0 then iter.value else iter.value ||| iter.mask
    if iter.h_index < value then some (false, iter)
    else if iter.r_index ≤ heap.last (heap.right iter.cur) then
      (descend heap { iter with value := value } (heap.right iter.cur)).map fun iter => (true, iter)
    else some (false, iter)

def prio_tree_parent (heap : Heap) (iter : Iter) : Iter :=
  let mask :=
    if iter.mask = ULONG_MAX then 1
    else if iter.size_level = 1 then 1
    else iter.mask <<< 1 % 2 ^ 32
  let size_level := if iter.size_level ≠ 0 then iter.size_level - 1 else iter.size_level
  let value := if size_level = 0 ∧ iter.value &&& mask ≠ 0 then iter.value ^^^ mask else iter.value
  { iter with
    cur := heap.parent iter.cur, mask := mask, size_level := size_level, value := value }

/-- The indices that the last move has read are those of the node it has gone to. -/
def overlap (heap : Heap) (iter : Iter) : Bool :=
  iter.h_index ≥ heap.start iter.cur ∧ iter.r_index ≤ heap.last iter.cur

def first_loop : Nat → Heap → Iter → Option (Nat × Iter)
  | 0, _, _ => none
  | fuel + 1, heap, iter =>
    if overlap heap iter then some (iter.cur, iter)
    else
      match prio_tree_left heap iter with
      | none => none
      | some (true, iter) => first_loop fuel heap iter
      | some (false, iter) =>
        match prio_tree_right heap iter with
        | none => none
        | some (true, iter) => first_loop fuel heap iter
        | some (false, iter) => some (0, iter)

def prio_tree_first (s : State) (iter : Iter) : Option (Nat × Iter) :=
  let iter := INIT_PRIO_TREE_ITER iter
  if prio_tree_empty s then some (0, iter)
  else if iter.r_index > s.heap.last s.root.prio_tree_node then some (0, iter)
  else
    first_loop LEVELS s.heap
      { iter with mask := 2 ^ (s.root.index_bits - 1), cur := s.root.prio_tree_node }

/-- The loops of `prio_tree_next`: down to the left, then to the right, or else up. -/
inductive Loop where
  | left
  | right
  | up
deriving DecidableEq

def next_loop : Nat → Heap → Loop → Iter → Option (Nat × Iter)
  | 0, _, _, _ => none
  | fuel + 1, heap, .left, iter =>
    match prio_tree_left heap iter with
    | none => none
    | some (true, iter) =>
      if overlap heap iter then some (iter.cur, iter) else next_loop fuel heap .left iter
    | some (false, iter) => next_loop fuel heap .right iter
  | fuel + 1, heap, .right, iter =>
    match prio_tree_right heap iter with
    | none => none
    | some (true, iter) =>
      if overlap heap iter then some (iter.cur, iter) else next_loop fuel heap .left iter
    | some (false, iter) => next_loop fuel heap .up iter
  | fuel + 1, heap, .up, iter =>
    if ¬prio_tree_root heap iter.cur ∧ heap.right (heap.parent iter.cur) = iter.cur then
      next_loop fuel heap .up (prio_tree_parent heap iter)
    else if prio_tree_root heap iter.cur then some (0, iter)
    else next_loop fuel heap .right (prio_tree_parent heap iter)

/-- The next node, NULL if there is none. -/
def prio_tree_next (fuel : Nat) (s : State) (iter : Iter) : Option (Nat × Iter) :=
  if iter.cur = 0 then prio_tree_first s iter else next_loop fuel s.heap .left iter

end Nubernel.PrioTree
