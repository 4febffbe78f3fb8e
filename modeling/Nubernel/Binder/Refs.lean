import Nubernel.Framework.System
import Nubernel.Lib.Word
import Nubernel.Rbtree.Index

/-! # binder: nodes and references

Model of the reference counting in `drivers/staging/android/binder.c`. A
node stands for an object of the process that owns it, a reference for
the handle that another process has on a node. References count strong
and weak uses; a node counts the references that are held strongly, and
the uses by the driver itself (the local counts).

Nodes and references are named by their addresses. `none` as the result
of a function means that it ran into a `BUG` or followed a pointer to
freed memory. Death notifications and debugging data are left out, and
of the lists of work only on which of them a node is.
-/

namespace Nubernel.Binder

open Function LTS Rbtree

/-! ## Data -/

/-- A list of work, of a process or of a thread. -/
inductive TodoList where
  | proc (proc : Nat)
  | thread (thread : Nat)
  deriving DecidableEq, Repr

/-- `struct binder_node`; the counts are of type `int`. -/
structure Node where
  /-- `NULL` when the owner is dead. -/
  proc : Option Nat
  refs : List Nat
  internal_strong_refs : Int
  local_weak_refs : Int
  local_strong_refs : Int
  ptr : Nat
  cookie : Nat
  has_strong_ref : Bool
  has_weak_ref : Bool
  accept_fds : Bool
  /-- The list that `work.entry` is on. -/
  work : Option TodoList
  deriving DecidableEq, Repr

/-- `struct binder_ref`. -/
structure Ref where
  proc : Nat
  node : Nat
  desc : Nat
  strong : Int
  weak : Int
  deriving DecidableEq, Repr

/-- `ref->strong` or `ref->weak`. -/
def Ref.count (r : Ref) (strong : Bool) : Int := if strong then r.strong else r.weak

def Ref.set_count (r : Ref) (strong : Bool) (c : Int) : Ref :=
  if strong then { r with strong := c } else { r with weak := c }

/-- The trees of `struct binder_proc`, which hold addresses. -/
structure Trees where
  nodes : Rbtree.Tree Nat
  refs_by_desc : Rbtree.Tree Nat
  refs_by_node : Rbtree.Tree Nat

/-- All nodes and references of the driver. -/
structure RefState where
  nodes : Nat → Option Node
  refs : Nat → Option Ref
  procs : Nat → Trees
  binder_context_mgr_node : Option Nat
  /-- The nodes that have been freed, as they were then. -/
  deleted : List Node

namespace RefState

def node_ptr (s : RefState) (node : Nat) : Nat := (s.nodes node).elim 0 Node.ptr

def ref_desc (s : RefState) (ref : Nat) : Nat := (s.refs ref).elim 0 Ref.desc

def ref_node (s : RefState) (ref : Nat) : Nat := (s.refs ref).elim 0 Ref.node

def set_node (s : RefState) (node : Nat) (n : Node) : RefState :=
  { s with nodes := update s.nodes node (some n) }

def set_ref (s : RefState) (ref : Nat) (r : Ref) : RefState :=
  { s with refs := update s.refs ref (some r) }

/-- Memory that `kzalloc` may return, with its minimal alignment. -/
def unused (s : RefState) (addr : Nat) : Bool :=
  decide (8 ∣ addr ∧ 0 < addr ∧ addr < 2 ^ 32) && (s.nodes addr).isNone && (s.refs addr).isNone

/-- `kzalloc`, with the address it finds or `none` if it fails. -/
def kzalloc (s : RefState) (addr : Option Nat) : Option Nat := addr.filter s.unused

end RefState

/-! ## Nodes -/

def binder_get_node (s : RefState) (proc ptr : Nat) : Option Nat :=
  lookup s.node_ptr ptr (s.procs proc).nodes

/-- `binder_new_node`; `NULL` if there is a node with that `ptr`. -/
def binder_new_node (s : RefState) (proc ptr cookie : Nat) (addr : Option Nat) :
    RefState × Option Nat :=
  match binder_get_node s proc ptr with
  | some _ => (s, none)
  | none =>
    match s.kzalloc addr with
    | none => (s, none)
    | some node =>
      let trees := s.procs proc
      ({ s with
          nodes := update s.nodes node
            (some ⟨some proc, [], 0, 0, 0, ptr, cookie, false, false, false, none⟩)
          procs := update s.procs proc { trees with
            nodes := rb_insert (fun b => decide (ptr < s.node_ptr b)) node trees.nodes } },
        some node)

/-- `binder_inc_node` on the fields of the node, with `true` for the result 0. -/
def inc_node (n : Node) (is_context_mgr strong internal : Bool) (target_list : Option TodoList) :
    Node × Bool :=
  if strong then
    -- `invalid inc strong node`: nobody would tell the owner.
    if internal && target_list.isNone && decide (n.internal_strong_refs = 0) &&
        !(is_context_mgr && n.has_strong_ref) then (n, false)
    else
      let n :=
        if internal then { n with internal_strong_refs := toInt32 (n.internal_strong_refs + 1) }
        else { n with local_strong_refs := toInt32 (n.local_strong_refs + 1) }
      -- `list_del_init`, then `list_add_tail`: the work moves to that list.
      if !n.has_strong_ref && target_list.isSome then ({ n with work := target_list }, true)
      else (n, true)
  else
    let n := if internal then n else { n with local_weak_refs := toInt32 (n.local_weak_refs + 1) }
    if !n.has_weak_ref && n.work.isNone then
      -- `invalid inc weak node`.
      if target_list.isNone then (n, false) else ({ n with work := target_list }, true)
    else (n, true)

def binder_inc_node (s : RefState) (node : Nat) (strong internal : Bool)
    (target_list : Option TodoList) : Option (RefState × Bool) :=
  (s.nodes node).map fun n =>
    let r := inc_node n (decide (s.binder_context_mgr_node = some node)) strong internal target_list
    (s.set_node node r.1, r.2)

/-- What `binder_dec_node` does to the counts. -/
def dec_node (n : Node) (strong internal : Bool) : Node :=
  if strong then
    if internal then { n with internal_strong_refs := toInt32 (n.internal_strong_refs - 1) }
    else { n with local_strong_refs := toInt32 (n.local_strong_refs - 1) }
  else if internal then n
  else { n with local_weak_refs := toInt32 (n.local_weak_refs - 1) }

/-- `binder_dec_node` returns early. -/
def still_held (n : Node) (strong : Bool) : Bool :=
  if strong then decide (n.local_strong_refs ≠ 0 ∨ n.internal_strong_refs ≠ 0)
  else decide (n.local_weak_refs ≠ 0) || !n.refs.isEmpty

/-- The node leaves the tree of its owner, if that is alive, and is freed. -/
def free_node (s : RefState) (node : Nat) (n : Node) : RefState :=
  { s with
    nodes := update s.nodes node none
    procs :=
      match n.proc with
      | none => s.procs
      | some proc => update s.procs proc
          { s.procs proc with nodes := rb_erase node (s.procs proc).nodes }
    deleted := n :: s.deleted }

def binder_dec_node (s : RefState) (node : Nat) (strong internal : Bool) : Option RefState :=
  match s.nodes node with
  | none => none
  | some n =>
    let n := dec_node n strong internal
    if still_held n strong then some (s.set_node node n)
    -- The owner has to be told that the node is used no more.
    else if n.proc.isSome && (n.has_strong_ref || n.has_weak_ref) then
      some (s.set_node node (if n.work.isNone then { n with work := n.proc.map .proc } else n))
    else if n.refs.isEmpty && decide (n.local_strong_refs = 0 ∧ n.local_weak_refs = 0) then
      some (free_node s node n)
    else some (s.set_node node n)

/-! ## References -/

def binder_get_ref (s : RefState) (proc desc : Nat) : Option Nat :=
  lookup s.ref_desc desc (s.procs proc).refs_by_desc

/-- The loop that finds a descriptor for a new reference, over the
descriptors in use. -/
def free_desc : List Nat → Nat → Nat
  | [], desc => desc
  | d :: ds, desc => if d > desc then desc else free_desc ds (add32 d 1)

def binder_get_ref_for_node (s : RefState) (proc node : Nat) (addr : Option Nat) :
    Option (RefState × Option Nat) :=
  let trees := s.procs proc
  match lookup s.ref_node node trees.refs_by_node with
  | some ref => some (s, some ref)
  | none =>
    match s.kzalloc addr with
    | none => some (s, none)
    | some new_ref =>
      -- Descriptor 0 is that of the context manager.
      let desc := free_desc (trees.refs_by_desc.toList.map s.ref_desc)
        (if s.binder_context_mgr_node = some node then 0 else 1)
      match lookup s.ref_desc desc trees.refs_by_desc, s.nodes node with
      | none, some n =>
        some ({ s with
            nodes := update s.nodes node (some { n with refs := new_ref :: n.refs })
            refs := update s.refs new_ref (some ⟨proc, node, desc, 0, 0⟩)
            procs := update s.procs proc { trees with
              refs_by_node := rb_insert (fun b => decide (node < s.ref_node b)) new_ref
                trees.refs_by_node
              refs_by_desc := rb_insert (fun b => decide (desc < s.ref_desc b)) new_ref
                trees.refs_by_desc } },
          some new_ref)
      -- `BUG()` on a descriptor in use, and the node has to be there.
      | _, _ => none

/-- The reference leaves the trees of its process. -/
def erase_ref (s : RefState) (ref : Nat) (r : Ref) : RefState :=
  let trees := s.procs r.proc
  { s with procs := update s.procs r.proc { trees with
      refs_by_desc := rb_erase ref trees.refs_by_desc
      refs_by_node := rb_erase ref trees.refs_by_node } }

/-- `hlist_del(&ref->node_entry)`. -/
def unlink_ref (s : RefState) (ref node : Nat) : Option RefState :=
  (s.nodes node).map fun n => s.set_node node { n with refs := n.refs.erase ref }

/-- A strong reference to the node is given back, if there was one. -/
def give_back (s : RefState) (node : Nat) (was_strong : Bool) : Option RefState :=
  if was_strong then binder_dec_node s node true true else some s

def binder_delete_ref (s : RefState) (ref : Nat) : Option RefState :=
  match s.refs ref with
  | none => none
  | some r => do
    let s := erase_ref s ref r
    -- The strong use of the node goes with the last strong use of the reference.
    let s ← give_back s r.node (decide (r.strong ≠ 0))
    let s ← unlink_ref s ref r.node
    let s ← binder_dec_node s r.node false true
    some { s with refs := update s.refs ref none }

/-- `binder_inc_ref`, with `true` for the result 0. -/
def binder_inc_ref (s : RefState) (ref : Nat) (strong : Bool) (target_list : Option TodoList) :
    Option (RefState × Bool) :=
  match s.refs ref with
  | none => none
  | some r =>
    let counted := r.set_count strong (toInt32 (r.count strong + 1))
    -- The first use of the reference is a use of the node.
    if r.count strong = 0 then
      match binder_inc_node s r.node strong true target_list with
      | none => none
      | some (s, false) => some (s, false)
      | some (s, true) => some (s.set_ref ref counted, true)
    else some (s.set_ref ref counted, true)

/-- `binder_dec_ref`, with `true` for the result 0. -/
def binder_dec_ref (s : RefState) (ref : Nat) (strong : Bool) : Option (RefState × Bool) :=
  match s.refs ref with
  | none => none
  | some r =>
    -- `invalid dec`: there is no use to give back.
    if r.count strong = 0 then some (s, false)
    else do
      let r := r.set_count strong (toInt32 (r.count strong - 1))
      let s := s.set_ref ref r
      let s ← give_back s r.node (strong && decide (r.strong = 0))
      (if r.strong = 0 ∧ r.weak = 0 then binder_delete_ref s ref else some s).map (·, true)

/-! ## What else happens to nodes -/

/-- One round of `binder_thread_read` with a node as the work. The owner is
told when the node is used first and when it is used no more. -/
def binder_work_node (s : RefState) (node : Nat) : Option RefState :=
  match s.nodes node with
  | none => none
  | some n =>
    let strong := decide (n.internal_strong_refs ≠ 0 ∨ n.local_strong_refs ≠ 0)
    let weak := !n.refs.isEmpty || decide (n.local_weak_refs ≠ 0) || strong
    if weak && !n.has_weak_ref then
      some (s.set_node node { n with
        has_weak_ref := true, local_weak_refs := toInt32 (n.local_weak_refs + 1) })
    else if strong && !n.has_strong_ref then
      some (s.set_node node { n with
        has_strong_ref := true, local_strong_refs := toInt32 (n.local_strong_refs + 1) })
    else if !strong && n.has_strong_ref then
      some (s.set_node node { n with has_strong_ref := false })
    else if !weak && n.has_weak_ref then
      some (s.set_node node { n with has_weak_ref := false })
    -- `BR_RELEASE` and `BR_DECREFS` have been sent, and the owner has forgotten the node.
    else if !weak && !strong then some (free_node s node { n with work := none })
    else some (s.set_node node { n with work := none })

/-- `BINDER_SET_CONTEXT_MGR`, when there is no context manager. -/
def binder_set_context_mgr (s : RefState) (proc : Nat) (addr : Option Nat) : RefState :=
  match binder_new_node s proc 0 0 addr with
  | (s, none) => s
  | (s, some node) =>
    { s with
      binder_context_mgr_node := some node
      nodes := update s.nodes node ((s.nodes node).map fun n => { n with
        local_weak_refs := toInt32 (n.local_weak_refs + 1)
        local_strong_refs := toInt32 (n.local_strong_refs + 1)
        has_strong_ref := true
        has_weak_ref := true }) }

/-- What `binder_deferred_release` of the owner does to a node that is still
referred to. -/
def release_node (s : RefState) (node : Nat) (n : Node) (proc : Nat) : RefState :=
  { s with
    nodes := update s.nodes node (some { n with
      proc := none, local_strong_refs := 0, local_weak_refs := 0, work := none })
    procs := update s.procs proc
      { s.procs proc with nodes := rb_erase node (s.procs proc).nodes }
    binder_context_mgr_node :=
      if s.binder_context_mgr_node = some node then none else s.binder_context_mgr_node }

/-! ## The driver as a transition system -/

inductive RefLabel where
  | binder_new_node (proc ptr cookie : Nat) (addr : Option Nat)
  | binder_get_ref_for_node (proc node : Nat) (addr : Option Nat)
  | binder_inc_ref (ref : Nat) (strong : Bool) (target_list : Option TodoList)
  | binder_dec_ref (ref : Nat) (strong : Bool)
  | binder_delete_ref (ref : Nat)
  | binder_inc_node (node : Nat) (strong : Bool) (target_list : Option TodoList)
  | binder_dec_node (node : Nat) (strong : Bool)
  | binder_work_node (node : Nat)
  | binder_set_context_mgr (proc : Nat) (addr : Option Nat)
  | release_node (node : Nat)
  deriving DecidableEq, Repr

/-- The local uses of a node that may be given back: those taken, but for the
one that makes it the context manager. -/
def local_uses (s : RefState) (node : Nat) (n : Node) (strong : Bool) : Int :=
  (if strong then n.local_strong_refs else n.local_weak_refs) -
    if s.binder_context_mgr_node = some node then 1 else 0

/-- One call. Local uses of a node are given back as often as they were
taken at most. -/
def ref_step (s : RefState) : RefLabel → Option RefState
  | .binder_new_node proc ptr cookie addr => some (binder_new_node s proc ptr cookie addr).1
  | .binder_get_ref_for_node proc node addr =>
    (binder_get_ref_for_node s proc node addr).map Prod.fst
  | .binder_inc_ref ref strong target_list => (binder_inc_ref s ref strong target_list).map Prod.fst
  | .binder_dec_ref ref strong => (binder_dec_ref s ref strong).map Prod.fst
  | .binder_delete_ref ref => binder_delete_ref s ref
  | .binder_inc_node node strong target_list =>
    (binder_inc_node s node strong false target_list).map Prod.fst
  | .binder_dec_node node strong =>
    match s.nodes node with
    | none => none
    | some n => if 0 < local_uses s node n strong then binder_dec_node s node strong false else none
  | .binder_work_node node =>
    match s.nodes node with
    | none => none
    | some n => if n.proc.isSome && n.work.isSome then binder_work_node s node else none
  | .binder_set_context_mgr proc addr =>
    if s.binder_context_mgr_node.isNone then some (binder_set_context_mgr s proc addr) else none
  | .release_node node =>
    match s.nodes node with
    | none => none
    | some n =>
      match n.proc with
      | none => none
      | some proc => if n.refs.isEmpty then none else some (release_node s node n proc)

def ref_init : RefState := ⟨fun _ => none, fun _ => none, fun _ => ⟨.leaf, .leaf, .leaf⟩, none, []⟩

/-- All calls on all processes and nodes, in any order. -/
def references : System RefState RefLabel := .ofFun (fun s => s = ref_init) ref_step

end Nubernel.Binder
