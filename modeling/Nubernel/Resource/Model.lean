import Nubernel.Lib.Word

/-! # resource

Model of the tree of resources of `kernel/resource.c`, where `resource_size_t` has 32
bits. A resource has a range of addresses, both ends included, and the list of its
children, which the source links by `child` and `sibling`.

Functions that change the tree in place return it. The identity of a resource, which
is its address in the source, is a number.
-/

set_option linter.style.nameCheck false

namespace Nubernel.Resource

/-! ## Data -/

/-- `struct resource` without its links to children and siblings. -/
structure Res where
  id : Nat
  start : Nat
  end_ : Nat
  parent : Option Nat
deriving DecidableEq

/-- A resource with its children. -/
inductive Node where
  | mk (res : Res) (child : List Node)

namespace Node

def res : Node → Res
  | mk res _ => res

def child : Node → List Node
  | mk _ child => child

def id (n : Node) : Nat := n.res.id

def start (n : Node) : Nat := n.res.start

def end_ (n : Node) : Nat := n.res.end_

/-- `n->parent = parent`. -/
def setParent (n : Node) (parent : Nat) : Node := mk { n.res with parent := some parent } n.child

def setChild (n : Node) (child : List Node) : Node := mk n.res child

end Node

def EBUSY : Int := 16

/-! ## `__request_resource` -/

/-- What `__request_resource` comes to: the new resource is linked, or there is a
conflict with the root or with a child, which has the given siblings before and after
it. -/
inductive Request where
  | linked (root : Node)
  | root
  | conflict (pre : List Node) (first : Node) (post : List Node)

/-- The loop of `__request_resource` along the children of the root. -/
def request_loop (root new : Node) (pre : List Node) : List Node → Request
  | [] => .linked (root.setChild (pre ++ [new.setParent root.id]))
  | tmp :: post =>
    if tmp.start > new.end_ then
      .linked (root.setChild (pre ++ new.setParent root.id :: tmp :: post))
    else if tmp.end_ < new.start then request_loop root new (pre ++ [tmp]) post
    else .conflict pre tmp post

def __request_resource (root new : Node) : Request :=
  if new.end_ < new.start then .root
  else if new.start < root.start then .root
  else if new.end_ > root.end_ then .root
  else request_loop root new [] root.child

/-! ## `allocate_resource` -/

def ALIGN (x align : Nat) : Nat := add32 x (align - 1) &&& (2 ^ 32 - align)

/-- The body of the loop of `find_resource` for the gap from `start` to `stop`: the range
for the new resource, if it fits. -/
def try_gap (size min max align start stop : Nat) : Option (Nat × Nat) :=
  let start := ALIGN (if start < min then min else start) align
  let stop := if stop > max then max else stop
  if start < stop ∧ stop - start ≥ size - 1 then some (start, start + size - 1) else none

/-- The loop of `find_resource`; `start` is `tmp.start`, the list begins with `this`. -/
def find_loop (root_end size min max align : Nat) (start : Nat) : List Node → Option (Nat × Nat)
  | [] => try_gap size min max align start root_end
  | this :: rest =>
    (try_gap size min max align start (sub32 this.start 1)).or
      (find_loop root_end size min max align (add32 this.end_ 1) rest)

/-- `find_resource` without an `alignf`: the range for the new resource. -/
def find_resource (root : Node) (size min max align : Nat) : Option (Nat × Nat) :=
  match root.child with
  | [] => find_loop root.end_ size min max align root.start []
  | this :: rest =>
    if this.start = 0 then find_loop root.end_ size min max align (add32 this.end_ 1) rest
    else find_loop root.end_ size min max align root.start (this :: rest)

/-- The new resource with its range. -/
def Node.setRange (n : Node) (start end_ : Nat) : Node :=
  .mk { n.res with start := start, end_ := end_ } n.child

/-- `allocate_resource` without an `alignf`: the result and the tree. -/
def allocate_resource (root new : Node) (size min max align : Nat) : Int × Node :=
  match find_resource root size min max align with
  | none => (-EBUSY, root)
  | some (start, stop) =>
    match __request_resource root (new.setRange start stop) with
    | .linked root => (0, root)
    | _ => (-EBUSY, root)

/-! ## `__insert_resource` -/

/-- The loop over the conflicting siblings: those that go under the new resource and those
that stay, or the one that overlaps it partially. -/
def covered_run (new : Node) (next : Node) : List Node → Except Node (List Node × List Node)
  | [] =>
    if next.start < new.start ∨ next.end_ > new.end_ then .error next else .ok ([next], [])
  | sibling :: post =>
    if next.start < new.start ∨ next.end_ > new.end_ then .error next
    else if sibling.start > new.end_ then .ok ([next], sibling :: post)
    else (covered_run new sibling post).map fun (run, rest) => (next :: run, rest)

/-- The new resource as a child of `parent`, with the resources that go under it. -/
def Node.adopt (new : Node) (parent : Nat) (run : List Node) : Node :=
  .mk { new.res with parent := some parent } (run.map fun next => next.setParent new.id)

theorem request_loop_conflict {root new first : Node} {pre before post l : List Node}
    (h : request_loop root new before l = .conflict pre first post) :
    before ++ l = pre ++ first :: post := by
  induction l generalizing before with
  | nil => cases h
  | cons tmp l ih => ?_
  rw [request_loop] at h
  by_cases hstart : tmp.start > new.end_
  · rw [if_pos hstart] at h
    cases h
  rw [if_neg hstart] at h
  by_cases hend : tmp.end_ < new.start
  · rw [if_pos hend] at h
    have hsplit := ih h
    rw [List.append_assoc] at hsplit
    exact hsplit
  rw [if_neg hend] at h
  cases h
  rfl

/-- A conflict is with a child. -/
theorem __request_resource_conflict {root new first : Node} {pre post : List Node}
    (h : __request_resource root new = .conflict pre first post) :
    root.child = pre ++ first :: post := by
  unfold __request_resource at h
  split at h
  · cases h
  split at h
  · cases h
  split at h
  · cases h
  · exact request_loop_conflict h

theorem sizeOf_lt_of_child {n c : Node} (h : c ∈ n.child) : sizeOf c < sizeOf n := by
  obtain ⟨res, child⟩ := n
  have hlt := List.sizeOf_lt_of_mem h
  rw [Node.mk.sizeOf_spec]
  change sizeOf c < sizeOf child at hlt
  omega

/-- The conflicting resource, if any, and the tree below `parent`. -/
def __insert_resource (parent new : Node) : Option Node × Node :=
  match _hreq : __request_resource parent new with
  | .linked parent => (none, parent)
  | .root => (some parent, parent)
  | .conflict pre first post =>
    if first.start > new.start ∨ first.end_ < new.end_ ∨
        (first.start = new.start ∧ first.end_ = new.end_) then
      match covered_run new first post with
      | .error next => (some next, parent)
      | .ok (run, rest) =>
        (none, parent.setChild (pre ++ new.adopt parent.id run :: rest))
    else
      let below := __insert_resource first new
      (below.1, parent.setChild (pre ++ below.2 :: post))
termination_by sizeOf parent
decreasing_by
  refine sizeOf_lt_of_child ?_
  rw [__request_resource_conflict _hreq]
  exact List.mem_append_right pre List.mem_cons_self

/-! ## `insert_resource_expand_to_fit` -/

/-- The new resource expanded to cover the conflict. -/
def Node.cover (new conflict : Node) : Node :=
  new.setRange (if conflict.start < new.start then conflict.start else new.start)
    (if conflict.end_ > new.end_ then conflict.end_ else new.end_)

/-- The loop of `insert_resource_expand_to_fit`: the tree, and the new resource with the
range it has at the end. -/
def expand_loop : Nat → Node → Node → Option (Node × Node)
  | 0, _, _ => none
  | fuel + 1, root, new =>
    match __insert_resource root new with
    | (none, root) => some (root, new)
    | (some conflict, root) =>
      if conflict.id = root.id then some (root, new)
      else expand_loop fuel root (new.cover conflict)

def insert_resource_expand_to_fit (fuel : Nat) (root new : Node) : Option (Node × Node) :=
  if new.res.parent.isSome then some (root, new) else expand_loop fuel root new

end Nubernel.Resource
