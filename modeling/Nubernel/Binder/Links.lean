import Mathlib.Data.List.Perm.Subperm
import Nubernel.Binder.Refs

/-! # binder: how nodes and references are linked

The reference of a process to a node is in three places: in the two trees
of the process and on the list of the node. `Linked` says that these
agree with each other and that no pointer dangles. It does not depend on
the counts, so calls that only count keep it (`SameLinks`), and it holds
in all runs, even when a count has overflown.
-/

open Function List Option

namespace Nubernel.Binder

open LTS Rbtree

/-! ## The invariant -/

/-- What a reference is, apart from its counts. -/
def Ref.links (r : Ref) : Nat × Nat × Nat := (r.proc, r.node, r.desc)

/-- What a node is to those who search for it. -/
def Node.links (n : Node) : Option Nat × Nat × List Nat := (n.proc, n.ptr, n.refs)

def RefState.owns_ref (s : RefState) (proc ref : Nat) : Prop :=
  ∃ r, s.refs ref = some r ∧ r.proc = proc

def RefState.owns_node (s : RefState) (proc node : Nat) : Prop :=
  ∃ n, s.nodes node = some n ∧ n.proc = some proc

structure Linked (s : RefState) : Prop where
  aligned : ∀ a r, s.refs a = some r → 8 ∣ a ∧ 0 < a ∧ a < 2 ^ 32
  /-- A reference is on the list of its node, which is there. -/
  node_of : ∀ a r, s.refs a = some r → ∃ n, s.nodes r.node = some n ∧ a ∈ n.refs
  ref_of : ∀ x n, s.nodes x = some n → ∀ a ∈ n.refs, ∃ r, s.refs a = some r ∧ r.node = x
  nodup : ∀ x n, s.nodes x = some n → n.refs.Nodup
  by_desc : Family s.ref_desc s.owns_ref fun p => (s.procs p).refs_by_desc
  by_node : Family s.ref_node s.owns_ref fun p => (s.procs p).refs_by_node
  by_ptr : Family s.node_ptr s.owns_node fun p => (s.procs p).nodes

theorem linked_init : Linked ref_init := by
  refine ⟨?_, ?_, ?_, ?_, ?_, ?_, ?_⟩
  · intro a r h
    cases h
  · intro a r h
    cases h
  · intro x n h
    cases h
  · intro x n h
    cases h
  · exact fun p => Indexes.leaf _ fun a ⟨r, h, _⟩ => by cases h
  · exact fun p => Indexes.leaf _ fun a ⟨r, h, _⟩ => by cases h
  · exact fun p => Indexes.leaf _ fun x ⟨n, h, _⟩ => by cases h

/-- The references on the list of a node. -/
def RefState.list (s : RefState) (x : Nat) : List Nat := (s.nodes x).elim [] Node.refs

def RefState.points (s : RefState) (a x : Nat) : Prop := ∃ r, s.refs a = some r ∧ r.node = x

section lists
variable {s : RefState} {a x : Nat}

theorem mem_list : a ∈ s.list x ↔ ∃ n, s.nodes x = some n ∧ a ∈ n.refs := by
  unfold RefState.list
  cases s.nodes x <;> simp

/-- The lists have the references and nothing else. -/
theorem Linked.of_lists (haligned : ∀ a r, s.refs a = some r → 8 ∣ a ∧ 0 < a ∧ a < 2 ^ 32)
    (hlist : ∀ x a, a ∈ s.list x ↔ s.points a x) (hnodup : ∀ x, (s.list x).Nodup)
    (hdesc : Family s.ref_desc s.owns_ref fun p => (s.procs p).refs_by_desc)
    (hnode : Family s.ref_node s.owns_ref fun p => (s.procs p).refs_by_node)
    (hptr : Family s.node_ptr s.owns_node fun p => (s.procs p).nodes) : Linked s := by
  refine ⟨haligned, ?_, ?_, ?_, hdesc, hnode, hptr⟩
  · exact fun a r hr => mem_list.mp ((hlist r.node a).mpr ⟨r, hr, rfl⟩)
  · exact fun x n hn a ha => (hlist x a).mp (mem_list.mpr ⟨n, hn, ha⟩)
  intro x n hn
  have hx := hnodup x
  rwa [RefState.list, hn] at hx

theorem Linked.list_iff (h : Linked s) (x a : Nat) : a ∈ s.list x ↔ s.points a x := by
  rw [mem_list]
  constructor
  · rintro ⟨n, hn, ha⟩
    exact h.ref_of x n hn a ha
  rintro ⟨r, hr, rfl⟩
  exact h.node_of a r hr

theorem Linked.only_list (h : Linked s) {r : Ref} (hr : s.refs a = some r) (ha : a ∈ s.list x) :
    x = r.node := by
  obtain ⟨r', hr', rfl⟩ := (h.list_iff x a).mp ha
  rw [hr] at hr'
  cases hr'
  rfl

theorem Linked.list_nodup (h : Linked s) (x : Nat) : (s.list x).Nodup := by
  unfold RefState.list
  cases hn : s.nodes x with
  | none => exact nodup_nil
  | some n => exact h.nodup x n hn

end lists

/-! ## Calls that only count -/

/-- The two states differ in counts only. -/
structure SameLinks (s s' : RefState) : Prop where
  refs : ∀ a, (s'.refs a).map Ref.links = (s.refs a).map Ref.links
  nodes : ∀ x, (s'.nodes x).map Node.links = (s.nodes x).map Node.links
  procs : s'.procs = s.procs

namespace SameLinks

variable {s s' s'' : RefState}

section
variable (h : SameLinks s s')
include h

theorem symm : SameLinks s' s :=
  ⟨fun a => (h.refs a).symm, fun x => (h.nodes x).symm, h.procs.symm⟩

theorem trans (h' : SameLinks s' s'') : SameLinks s s'' :=
  ⟨fun a => (h'.refs a).trans (h.refs a), fun x => (h'.nodes x).trans (h.nodes x),
    h'.procs.trans h.procs⟩

variable {a x : Nat} {r : Ref} {n : Node}

theorem ref (hr : s.refs a = some r) :
    ∃ r', s'.refs a = some r' ∧ r'.links = r.links := by
  have := h.refs a
  rw [hr, map_some, map_eq_some_iff] at this
  exact this

omit h in
theorem set_node {n' : Node} (hn : s.nodes x = some n) (hlinks : n'.links = n.links) :
    SameLinks s (s.set_node x n') := by
  refine ⟨fun _ => rfl, ?_, rfl⟩
  intro y
  simp only [RefState.set_node, update_apply]
  split
  · rename_i hy
    rw [hy, hn, map_some, map_some, hlinks]
  rfl

omit h in
theorem set_ref {r' : Ref} (hr : s.refs a = some r) (hlinks : r'.links = r.links) :
    SameLinks s (s.set_ref a r') := by
  refine ⟨?_, fun _ => rfl, rfl⟩
  intro b
  simp only [RefState.set_ref, update_apply]
  split
  · rename_i hb
    rw [hb, hr, map_some, map_some, hlinks]
  rfl

omit h in
theorem exists_links {α β : Type} {links : α → β} {o o' : Option α}
    (h : o'.map links = o.map links) (P : β → Prop) :
    (∃ r, o' = some r ∧ P (links r)) ↔ ∃ r, o = some r ∧ P (links r) := by
  have hmap : ∀ o : Option α, (∃ r, o = some r ∧ P (links r)) ↔ ∃ l, o.map links = some l ∧ P l := by
    intro o
    cases o <;> simp
  rw [hmap, h, hmap]

theorem owns_ref (p a : Nat) : s'.owns_ref p a ↔ s.owns_ref p a :=
  exists_links (h.refs a) (·.1 = p)

theorem owns_node (p x : Nat) : s'.owns_node p x ↔ s.owns_node p x :=
  exists_links (h.nodes x) (·.1 = some p)

theorem points (a x : Nat) : s'.points a x ↔ s.points a x :=
  exists_links (h.refs a) (·.2.1 = x)

omit h in
/-- A key is read from the links. -/
theorem elim_links {α β γ : Type} {links : α → β} {o o' : Option α}
    (h : o'.map links = o.map links) (key : β → γ) (d : γ) :
    o'.elim d (key ∘ links) = o.elim d (key ∘ links) := by
  rw [← Option.elim_map, h, Option.elim_map]

theorem ref_desc : s'.ref_desc = s.ref_desc :=
  funext fun a => elim_links (h.refs a) (·.2.2) 0

theorem ref_node : s'.ref_node = s.ref_node :=
  funext fun a => elim_links (h.refs a) (·.2.1) 0

theorem node_ptr : s'.node_ptr = s.node_ptr :=
  funext fun x => elim_links (h.nodes x) (·.2.1) 0

theorem list : s'.list = s.list :=
  funext fun x => elim_links (h.nodes x) (·.2.2) []

end

end SameLinks

theorem Linked.of_same {s s' : RefState} (h : Linked s) (hsame : SameLinks s s') : Linked s' := by
  refine .of_lists ?_ ?_ ?_ ?_ ?_ ?_
  · intro a r' hr'
    obtain ⟨r, hr, _⟩ := hsame.symm.ref hr'
    exact h.aligned a r hr
  · intro x a
    rw [hsame.list, hsame.points]
    exact h.list_iff x a
  · rw [hsame.list]
    exact h.list_nodup
  · rw [hsame.procs, hsame.ref_desc]
    exact h.by_desc.congr hsame.owns_ref (fun _ _ _ => rfl) fun _ => rfl
  · rw [hsame.procs, hsame.ref_node]
    exact h.by_node.congr hsame.owns_ref (fun _ _ _ => rfl) fun _ => rfl
  rw [hsame.procs, hsame.node_ptr]
  exact h.by_ptr.congr hsame.owns_node (fun _ _ _ => rfl) fun _ => rfl

/-! ## Nodes and references that come and go -/

section changes
variable {s : RefState} {x a : Nat} {n : Node} {r : Ref}

variable {s' : RefState} {proc : Nat} {n' : Node}

section
variable {α : Type} {f : Nat → Option α} {v : α} {P : α → Prop} {b : Nat}

theorem exists_update_some :
    (∃ y, update f a (some v) b = some y ∧ P y) ↔
      b = a ∧ P v ∨ b ≠ a ∧ ∃ y, f b = some y ∧ P y := by
  rcases eq_or_ne b a with rfl | hne
  · simp
  · simp [hne]

theorem exists_update_none :
    (∃ y, update f a none b = some y ∧ P y) ↔ b ≠ a ∧ ∃ y, f b = some y ∧ P y := by
  rcases eq_or_ne b a with rfl | hne
  · simp
  · simp [hne]

end

section
variable (h : Linked s)
include h

theorem Linked.same_refs (hrefs : s'.refs = s.refs) (hlist : ∀ y, s'.list y = s.list y)
    (hprocs : ∀ q, (s'.procs q).refs_by_desc = (s.procs q).refs_by_desc ∧
      (s'.procs q).refs_by_node = (s.procs q).refs_by_node)
    (hptr : Family s'.node_ptr s'.owns_node fun p => (s'.procs p).nodes) : Linked s' := by
  have howns : ∀ p a, s'.owns_ref p a ↔ s.owns_ref p a := by simp [RefState.owns_ref, hrefs]
  refine .of_lists (hrefs ▸ h.aligned) ?_ ?_ ?_ ?_ hptr
  · intro y b
    rw [hlist, h.list_iff, RefState.points, RefState.points, hrefs]
  · intro y
    rw [hlist]
    exact h.list_nodup y
  · refine h.by_desc.congr howns ?_ fun q => (hprocs q).1
    simp [RefState.ref_desc, hrefs]
  refine h.by_node.congr howns ?_ fun q => (hprocs q).2
  simp [RefState.ref_node, hrefs]

theorem Linked.mem_refs (hr : s.refs a = some r) (hn : s.nodes r.node = some n) : a ∈ n.refs := by
  obtain ⟨m, hm, hmem⟩ := h.node_of a r hr
  rw [hn] at hm
  cases hm
  exact hmem

omit h in
theorem owner_unique (hn : s.nodes x = some n) (hproc : n.proc = some proc) {q : Nat}
    (howns : s.owns_node q x) : q = proc := by
  obtain ⟨m, hm, hq⟩ := howns
  rw [hn] at hm
  cases hm
  rw [hproc] at hq
  exact (Option.some.inj hq).symm

/-- The trees of nodes, when one node changes but neither its owner nor its
pointer. -/
theorem Linked.node_trees (hn : s.nodes x = some n) (n' : Node) (hproc : n'.proc = n.proc)
    (hptr : n'.ptr = n.ptr) (hnodes : s'.nodes = update s.nodes x (some n'))
    (hprocs : ∀ q, (s'.procs q).nodes = (s.procs q).nodes) :
    Family s'.node_ptr s'.owns_node fun p => (s'.procs p).nodes := by
  apply h.by_ptr.congr ?_ ?_ hprocs
  · intro q y
    unfold RefState.owns_node
    rw [hnodes, update_apply]
    split
    · rename_i hy
      rw [hy, hn]
      simp [hproc]
    rfl
  intro q y _
  unfold RefState.node_ptr
  rw [hnodes, update_apply]
  split
  · rename_i hy
    rw [hy, hn]
    exact hptr
  rfl

omit h in
/-- A tree of nodes of a process is set. -/
theorem update_nodes_trees (procs : Nat → Trees) (proc : Nat) (nodes : Rbtree.Tree Nat) (q : Nat) :
    (update procs proc { procs proc with nodes := nodes } q).refs_by_desc =
      (procs q).refs_by_desc ∧
    (update procs proc { procs proc with nodes := nodes } q).refs_by_node =
      (procs q).refs_by_node := by
  rw [update_apply]
  split
  · rename_i hq
    rw [hq]
    exact ⟨rfl, rfl⟩
  exact ⟨rfl, rfl⟩

omit h in
/-- The trees of references of a process are set. -/
theorem update_refs_trees (procs : Nat → Trees) (proc : Nat) (by_desc by_node : Rbtree.Tree Nat)
    (q : Nat) :
    (update procs proc
      { procs proc with refs_by_desc := by_desc, refs_by_node := by_node } q).nodes =
      (procs q).nodes := by
  rw [update_apply]
  split
  · rename_i hq
    rw [hq]
  rfl

theorem Linked.insert_node (hnew : s.nodes x = none) {ptr : Nat}
    (hn : n.links = (some proc, ptr, [])) (hptr : binder_get_node s proc ptr = none) :
    Linked { s with
      nodes := update s.nodes x (some n)
      procs := update s.procs proc { s.procs proc with
        nodes := rb_insert (fun b => decide (ptr < s.node_ptr b)) x (s.procs proc).nodes } } := by
  have hproc : n.proc = some proc := congrArg (·.1) hn
  have hnptr : n.ptr = ptr := congrArg (·.2.1) hn
  have hrefs : n.refs = [] := congrArg (·.2.2) hn
  have hother : ∀ {y m}, s.nodes y = some m → y ≠ x := by
    rintro y m hm rfl
    rw [hnew] at hm
    cases hm
  refine h.same_refs rfl ?_ (update_nodes_trees s.procs proc _) ?_
  · intro y
    rcases eq_or_ne y x with rfl | hne
    · simp [RefState.list, hnew, hrefs]
    · simp [RefState.list, hne]
  -- `binder_new_node` walks the tree by pointer, and `hptr` says it is not there.
  refine h.by_ptr.insert (a := x) hptr ?_ ?_ ?_ ?_ ?_
  · simp [RefState.node_ptr, hnptr]
  · rintro q b ⟨m, hm, _⟩
    simp only [RefState.node_ptr, update_of_ne (hother hm)]
  · intro q b
    refine exists_update_some.trans ?_
    rw [hproc, Option.some.injEq, and_comm, @eq_comm _ proc]
    exact or_congr_right (and_iff_right_of_imp fun ⟨m, hm, _⟩ => hother hm)
  · intro q hq
    simp only [update_of_ne hq]
  · simp

theorem Linked.free_node (hn : s.nodes x = some n) (hrefs : n.refs = [])
    (hproc : n'.proc = n.proc) : Linked (free_node s x n') := by
  refine h.same_refs rfl ?_ ?_ ?_
  · intro y
    rcases eq_or_ne y x with rfl | hne
    · simp [RefState.list, Binder.free_node, hn, hrefs]
    · simp [RefState.list, Binder.free_node, hne]
  · intro q
    unfold Binder.free_node
    cases n'.proc with
    | none => exact ⟨rfl, rfl⟩
    | some p => exact update_nodes_trees s.procs p _ q
  have howns : ∀ q b, (Binder.free_node s x n').owns_node q b ↔ b ≠ x ∧ s.owns_node q b :=
    fun q b => exists_update_none
  have hkey : ∀ q b, b ≠ x → s.owns_node q b →
      (Binder.free_node s x n').node_ptr b = s.node_ptr b := by
    intro q b hne _
    simp only [RefState.node_ptr, Binder.free_node, update_of_ne hne]
  cases hp : n.proc with
  | none =>
    -- A node whose owner has exited is in no tree: `rb_erase` is not called.
    have hnot : ∀ q b, s.owns_node q b → b ≠ x := by
      rintro q b ⟨m, hm, hq⟩ rfl
      rw [hn] at hm
      cases hm
      rw [hp] at hq
      cases hq
    refine h.by_ptr.congr ?_ (fun q b hb => hkey q b (hnot q b hb) hb) ?_
    · intro q b
      rw [howns q b]
      exact ⟨fun hb => hb.2, fun hb => ⟨hnot q b hb, hb⟩⟩
    intro q
    simp only [Binder.free_node, hproc, hp]
  | some p => ?_
  -- The only tree that has it is that of its owner.
  refine h.by_ptr.erase (p := p) (a := x) ⟨n, hn, hp⟩ (fun _ => owner_unique hn hp) hkey howns ?_ ?_
  · intro q hq
    simp only [Binder.free_node, hproc, hp, update_of_ne hq]
  simp only [Binder.free_node, hproc, hp, update_self]

theorem Linked.release_node (hn : s.nodes x = some n)
    (hproc : n.proc = some proc) : Linked (release_node s x n proc) := by
  refine h.same_refs rfl ?_ (update_nodes_trees s.procs proc _) ?_
  · intro y
    rcases eq_or_ne y x with rfl | hne
    · simp [RefState.list, Binder.release_node, hn]
    · simp [RefState.list, Binder.release_node, hne]
  refine h.by_ptr.erase (p := proc) (a := x) ⟨n, hn, hproc⟩ (fun _ => owner_unique hn hproc)
    ?_ ?_ ?_ ?_
  · intro q b hne _
    simp only [RefState.node_ptr, Binder.release_node, update_of_ne hne]
  · intro q b
    refine exists_update_some.trans ?_
    simp only [reduceCtorEq, and_false, false_or]
    rfl
  · intro q hq
    simp only [Binder.release_node, update_of_ne hq]
  · simp only [Binder.release_node, update_self]

/-- The state with a new reference of `proc` to the node `x`. -/
def add_ref (s : RefState) (proc x a desc : Nat) (n : Node) : RefState :=
  let trees := s.procs proc
  { s with
    nodes := Function.update s.nodes x (some { n with refs := a :: n.refs })
    refs := Function.update s.refs a (some ⟨proc, x, desc, 0, 0⟩)
    procs := Function.update s.procs proc { trees with
      refs_by_node := rb_insert (fun b => decide (x < s.ref_node b)) a trees.refs_by_node
      refs_by_desc := rb_insert (fun b => decide (desc < s.ref_desc b)) a trees.refs_by_desc } }

theorem Linked.add_ref (hn : s.nodes x = some n) (hnew : s.refs a = none)
    (ha : 8 ∣ a ∧ 0 < a ∧ a < 2 ^ 32) {desc : Nat}
    (hnode : lookup s.ref_node x (s.procs proc).refs_by_node = none)
    (hdesc : lookup s.ref_desc desc (s.procs proc).refs_by_desc = none) :
    Linked (add_ref s proc x a desc n) := by
  have hother : ∀ {b rb}, s.refs b = some rb → b ≠ a := by
    rintro b rb hb rfl
    rw [hnew] at hb
    cases hb
  have hkept : ∀ {b rb}, s.refs b = some rb → (Binder.add_ref s proc x a desc n).refs b = some rb := by
    intro b rb hb
    simp only [Binder.add_ref, update_of_ne (hother hb), hb]
  have hnew_ref : ∀ {P : Ref → Prop} {b},
      (∃ rb, (Binder.add_ref s proc x a desc n).refs b = some rb ∧ P rb) ↔
        b = a ∧ P ⟨proc, x, desc, 0, 0⟩ ∨ ∃ rb, s.refs b = some rb ∧ P rb :=
    exists_update_some.trans (or_congr_right (and_iff_right_of_imp fun ⟨_, hb, _⟩ => hother hb))
  have hownsr : ∀ q b, (Binder.add_ref s proc x a desc n).owns_ref q b ↔
      (q = proc ∧ b = a) ∨ s.owns_ref q b := by
    intro q b
    rw [and_comm, @eq_comm _ q]
    exact hnew_ref
  have hlist : ∀ y, (Binder.add_ref s proc x a desc n).list y =
      if y = x then a :: s.list x else s.list y := by
    intro y
    split
    · rename_i hy
      simp [RefState.list, Binder.add_ref, hy, hn]
    rename_i hy
    simp [RefState.list, Binder.add_ref, hy]
  refine .of_lists ?_ ?_ ?_ ?_ ?_ ?_
  · intro b rb hb
    simp only [Binder.add_ref, update_apply] at hb
    split at hb
    · rename_i hba
      exact hba ▸ ha
    exact h.aligned b rb hb
  · intro y b
    refine Iff.trans ?_ hnew_ref.symm
    rw [hlist]
    split
    · rename_i hy
      rw [hy, mem_cons, h.list_iff]
      simp [RefState.points]
    rename_i hy
    rw [h.list_iff]
    simp [RefState.points, Ne.symm hy]
  · intro y
    rw [hlist]
    split
    -- The allocator returns memory that is not in use.
    · refine nodup_cons.mpr ⟨?_, h.list_nodup x⟩
      rw [h.list_iff]
      simp [RefState.points, hnew]
    exact h.list_nodup y
  · refine h.by_desc.insert (a := a) hdesc ?_ ?_ hownsr ?_ ?_
    · simp [RefState.ref_desc, Binder.add_ref]
    · rintro q b ⟨rb, hb, _⟩
      simp only [RefState.ref_desc, hkept hb, hb]
    · intro q hq
      simp only [Binder.add_ref, update_of_ne hq]
    · simp only [Binder.add_ref, update_self]
  · refine h.by_node.insert (a := a) hnode ?_ ?_ hownsr ?_ ?_
    · simp [RefState.ref_node, Binder.add_ref]
    · rintro q b ⟨rb, hb, _⟩
      simp only [RefState.ref_node, hkept hb, hb]
    · intro q hq
      simp only [Binder.add_ref, update_of_ne hq]
    · simp only [Binder.add_ref, update_self]
  exact h.node_trees hn { n with refs := a :: n.refs } rfl rfl rfl
    (update_refs_trees s.procs proc _ _)

/-- The state without the reference `r` at `a`; `n'` is its node after that. -/
def drop_ref (s : RefState) (a : Nat) (r : Ref) (n' : Node) : RefState :=
  { erase_ref s a r with
    refs := Function.update s.refs a none
    nodes := Function.update s.nodes r.node (some n') }

theorem Linked.drop_ref (hr : s.refs a = some r) (hn : s.nodes r.node = some n)
    (hlinks : n'.links = (n.proc, n.ptr, n.refs.erase a)) :
    Linked (drop_ref s a r n') := by
  have hproc : n'.proc = n.proc := congrArg (·.1) hlinks
  have hptr : n'.ptr = n.ptr := congrArg (·.2.1) hlinks
  have hrefs : n'.refs = n.refs.erase a := congrArg (·.2.2) hlinks
  have hkept : ∀ {b}, b ≠ a → (Binder.drop_ref s a r n').refs b = s.refs b :=
    fun hb => update_of_ne hb ..
  have hownsr : ∀ q b, (Binder.drop_ref s a r n').owns_ref q b ↔ b ≠ a ∧ s.owns_ref q b :=
    fun q b => exists_update_none
  have hlist : ∀ y, (Binder.drop_ref s a r n').list y = (s.list y).erase a := by
    intro y
    by_cases hy : y = r.node
    · simp [RefState.list, Binder.drop_ref, hy, hn, hrefs]
    -- It is on no other list.
    rw [erase_of_not_mem fun ha => hy (h.only_list hr ha)]
    simp [RefState.list, Binder.drop_ref, hy]
  -- Both trees it is erased from are those of the process it belongs to.
  have honly : ∀ q, s.owns_ref q a → q = r.proc := by
    rintro q ⟨rb, hb, hq⟩
    rw [hr] at hb
    cases hb
    exact hq.symm
  refine .of_lists ?_ ?_ ?_ ?_ ?_ ?_
  · intro b rb hb
    simp only [Binder.drop_ref, update_apply] at hb
    split at hb
    · cases hb
    · exact h.aligned b rb hb
  · intro y b
    rw [hlist, (h.list_nodup y).mem_erase_iff, h.list_iff]
    exact exists_update_none.symm
  · intro y
    rw [hlist]
    exact (h.list_nodup y).erase a
  · refine h.by_desc.erase (p := r.proc) (a := a) ⟨r, hr, rfl⟩ honly ?_ hownsr ?_ ?_
    · intro q b hne _
      simp only [RefState.ref_desc, hkept hne]
    · intro q hq
      simp only [Binder.drop_ref, erase_ref, update_of_ne hq]
    · simp only [Binder.drop_ref, erase_ref, update_self]
  · refine h.by_node.erase (p := r.proc) (a := a) ⟨r, hr, rfl⟩ honly ?_ hownsr ?_ ?_
    · intro q b hne _
      simp only [RefState.ref_node, hkept hne]
    · intro q hq
      simp only [Binder.drop_ref, erase_ref, update_of_ne hq]
    · simp only [Binder.drop_ref, erase_ref, update_self]
  · exact h.node_trees hn n' hproc hptr rfl (update_refs_trees s.procs r.proc _ _)

end

end changes

/-! ## What the calls do -/

section calls
variable {s : RefState} {x a : Nat} {n : Node} {r : Ref}

theorem set_node_self (hn : s.nodes x = some n) : s.set_node x n = s := by
  unfold RefState.set_node
  rw [← hn, update_eq_self]

theorem set_ref_self (hr : s.refs a = some r) : s.set_ref a r = s := by
  unfold RefState.set_ref
  rw [← hr, update_eq_self]

theorem set_node_nodes (s : RefState) (x : Nat) (n : Node) : (s.set_node x n).nodes x = some n :=
  update_self ..

theorem inc_node_internal (n : Node) (is_context_mgr strong : Bool)
    (target_list : Option TodoList) :
    ∃ w ok, inc_node n is_context_mgr strong true target_list = ({ n with
      internal_strong_refs := if ok && strong then toInt32 (n.internal_strong_refs + 1)
        else n.internal_strong_refs
      work := w }, ok) := by
  unfold inc_node
  cases strong with
  | true =>
    simp only [if_true]
    split
    · exact ⟨n.work, false, rfl⟩
    split
    · exact ⟨_, true, rfl⟩
    · exact ⟨n.work, true, rfl⟩
  | false => ?_
  simp only [Bool.false_eq_true, if_false, if_true]
  split
  · split
    · exact ⟨n.work, false, rfl⟩
    · exact ⟨_, true, rfl⟩
  exact ⟨n.work, true, rfl⟩

/-- `binder_inc_node` by the driver counts in any case. -/
theorem inc_node_local (n : Node) (is_context_mgr strong : Bool) (target_list : Option TodoList) :
    ∃ w ok, inc_node n is_context_mgr strong false target_list = ({ n with
      local_strong_refs := if strong then toInt32 (n.local_strong_refs + 1) else n.local_strong_refs
      local_weak_refs := if strong then n.local_weak_refs else toInt32 (n.local_weak_refs + 1)
      work := w }, ok) := by
  unfold inc_node
  cases strong with
  | true =>
    simp only [if_true, Bool.false_and, Bool.false_eq_true, if_false]
    split
    · exact ⟨_, true, rfl⟩
    · exact ⟨n.work, true, rfl⟩
  | false => ?_
  simp only [Bool.false_eq_true, if_false]
  split
  · split
    · exact ⟨n.work, false, rfl⟩
    · exact ⟨_, true, rfl⟩
  exact ⟨n.work, true, rfl⟩

/-- `binder_dec_node` counts down and keeps the node, or it finds nobody who
uses it. -/
theorem dec_node_cases (hn : s.nodes x = some n) (strong internal : Bool) :
    (∃ w, binder_dec_node s x strong internal =
      some (s.set_node x { dec_node n strong internal with work := w })) ∨
    (binder_dec_node s x strong internal = some (free_node s x (dec_node n strong internal)) ∧
      (dec_node n strong internal).refs = [] ∧
      (dec_node n strong internal).local_strong_refs = 0 ∧
      (dec_node n strong internal).local_weak_refs = 0) := by
  unfold binder_dec_node
  rw [hn]
  simp only
  split
  · exact .inl ⟨_, rfl⟩
  split
  · left
    split
    · exact ⟨_, rfl⟩
    · exact ⟨_, rfl⟩
  split
  · rename_i hnobody
    simp only [Bool.and_eq_true, List.isEmpty_iff, decide_eq_true_eq] at hnobody
    exact .inr ⟨rfl, hnobody⟩
  exact .inl ⟨_, rfl⟩

theorem dec_node_links (n : Node) (strong internal : Bool) :
    (dec_node n strong internal).links = n.links := by
  unfold dec_node
  split
  · split <;> rfl
  · split <;> rfl

theorem set_count_links (r : Ref) (strong : Bool) (c : Int) :
    (r.set_count strong c).links = r.links := by
  unfold Ref.set_count
  split <;> rfl

/-- The state after `binder_inc_ref`, which has counted if `ok`. -/
def counted_up (s : RefState) (a : Nat) (r : Ref) (n : Node) (strong ok : Bool)
    (w : Option TodoList) : RefState :=
  (s.set_node r.node { n with
    internal_strong_refs :=
      if ok && strong && decide (r.strong = 0) then toInt32 (n.internal_strong_refs + 1)
      else n.internal_strong_refs
    work := w }).set_ref a (if ok then r.set_count strong (toInt32 (r.count strong + 1)) else r)

theorem SameLinks.counted_up (hr : s.refs a = some r) (hn : s.nodes r.node = some n)
    (strong ok : Bool) (w : Option TodoList) : SameLinks s (counted_up s a r n strong ok w) := by
  refine (SameLinks.set_node hn ?_).trans (SameLinks.set_ref (r := r) hr ?_)
  · rfl
  split
  · exact set_count_links r strong _
  · rfl

/-- `binder_inc_ref` counts, unless the count is zero and the node refuses. -/
theorem inc_ref_spec (hr : s.refs a = some r) (hn : s.nodes r.node = some n) (strong : Bool)
    (target_list : Option TodoList) :
    ∃ w ok, binder_inc_ref s a strong target_list = some (counted_up s a r n strong ok w, ok) ∧
      (ok = false → r.count strong = 0) := by
  unfold counted_up
  unfold binder_inc_ref
  rw [hr]
  simp only
  by_cases hzero : r.count strong = 0
  · rw [if_pos hzero]
    unfold binder_inc_node
    rw [hn]
    obtain ⟨w, ok, heq⟩ := inc_node_internal n (decide (s.binder_context_mgr_node = some r.node))
      strong target_list
    simp only [map_some, heq]
    -- The node is asked when the count goes from 0 to 1 only.
    have hstrong : strong = true → r.strong = 0 := by
      rintro rfl
      exact hzero
    cases ok with
    | false =>
      refine ⟨w, false, ?_, fun _ => hzero⟩
      have hr' : ∀ m, (s.set_node r.node m).refs a = some r := fun _ => hr
      simp only [Bool.false_and, Bool.false_eq_true, if_false]
      rw [set_ref_self (hr' _)]
    | true => ?_
    refine ⟨w, true, ?_, fun hcon => by cases hcon⟩
    cases strong with
    | true => simp [hstrong rfl]
    | false => simp
  rw [if_neg hzero]
  refine ⟨n.work, true, ?_, fun hcon => by cases hcon⟩
  -- A count that is not 0: the node does not change.
  have hkeep : (true && strong && decide (r.strong = 0)) = false := by
    cases strong with
    | true => simpa [Ref.count] using hzero
    | false => rfl
  simp only [hkeep, Bool.false_eq_true, if_false, if_true]
  rw [set_node_self hn]

/-- The node of a reference that is deleted, when it is not used any more. -/
def dropped_node (n : Node) (a : Nat) (strong : Int) (w : Option TodoList) : Node :=
  { n with
    internal_strong_refs :=
      if strong ≠ 0 then toInt32 (n.internal_strong_refs - 1) else n.internal_strong_refs
    refs := n.refs.erase a
    work := w }

/-- A strong reference is given back while it is still on the list of the
node, which is kept therefore. -/
theorem give_back_spec (hn : s.nodes x = some n) (hrefs : n.refs ≠ []) (was_strong : Bool) :
    ∃ w, give_back s x was_strong = some (s.set_node x { n with
      internal_strong_refs :=
        if was_strong then toInt32 (n.internal_strong_refs - 1) else n.internal_strong_refs
      work := w }) := by
  unfold give_back
  cases was_strong with
  | false =>
    refine ⟨n.work, ?_⟩
    simp only [Bool.false_eq_true, if_false]
    rw [show ({ n with work := n.work } : Node) = n from rfl, set_node_self hn]
  | true => ?_
  rcases dec_node_cases hn true true with ⟨w, heq⟩ | ⟨_, hnil, _⟩
  · exact ⟨w, heq⟩
  -- The list still has the reference, so the node is not freed here.
  exact absurd hnil hrefs

theorem set_node_twice (s : RefState) (x : Nat) (m m' : Node) :
    (s.set_node x m).set_node x m' = s.set_node x m' := by
  unfold RefState.set_node
  rw [update_idem]

/-- `binder_delete_ref` drops the reference, and with it the node if nobody
uses that. -/
theorem delete_ref_spec (h : Linked s) (hr : s.refs a = some r) (hn : s.nodes r.node = some n) :
    ∃ w, binder_delete_ref s a = some (drop_ref s a r (dropped_node n a r.strong w)) ∨
      (binder_delete_ref s a = some (free_node (drop_ref s a r (dropped_node n a r.strong w))
          r.node (dropped_node n a r.strong w)) ∧
        n.refs.erase a = [] ∧ n.local_strong_refs = 0 ∧ n.local_weak_refs = 0) := by
  have hrefs : n.refs ≠ [] := ne_nil_of_mem (h.mem_refs hr hn)
  have hn₁ : (erase_ref s a r).nodes r.node = some n := hn
  obtain ⟨w, hback⟩ := give_back_spec hn₁ hrefs (decide (r.strong ≠ 0))
  have hn₂ := set_node_nodes (erase_ref s a r) r.node (dropped_node n a r.strong w)
  unfold binder_delete_ref
  rw [hr]
  simp only [bind_eq_bind, hback, bind_some, unlink_ref, set_node_nodes,
    map_some, set_node_twice, decide_eq_true_eq]
  change ∃ w', (binder_dec_node ((erase_ref s a r).set_node r.node (dropped_node n a r.strong w))
    r.node false true).bind _ = _ ∨ ((binder_dec_node ((erase_ref s a r).set_node r.node
      (dropped_node n a r.strong w)) r.node false true).bind _ = _ ∧ _)
  -- The weak use goes last, when the reference has left the list.
  rcases dec_node_cases hn₂ false true with ⟨w', heq⟩ | ⟨heq, hnil, h1, h2⟩
  · refine ⟨w', .inl ?_⟩
    rw [heq, bind_some, set_node_twice]
    rfl
  refine ⟨w, .inr ⟨?_, hnil, h1, h2⟩⟩
  rw [heq, bind_some]
  rfl

/-- `binder_dec_ref` before it looks whether the reference is still used. -/
def counted_down (s : RefState) (a : Nat) (r : Ref) (n : Node) (strong : Bool)
    (w : Option TodoList) : RefState :=
  let r' := r.set_count strong (toInt32 (r.count strong - 1))
  (s.set_ref a r').set_node r.node { n with
    internal_strong_refs :=
      if strong && decide (r'.strong = 0) then toInt32 (n.internal_strong_refs - 1)
      else n.internal_strong_refs
    work := w }

theorem SameLinks.counted_down (hr : s.refs a = some r) (hn : s.nodes r.node = some n)
    (strong : Bool) (w : Option TodoList) : SameLinks s (counted_down s a r n strong w) := by
  have hn' : (s.set_ref a (r.set_count strong (toInt32 (r.count strong - 1)))).nodes r.node =
    some n := hn
  exact (SameLinks.set_ref hr (set_count_links r strong _)).trans (SameLinks.set_node hn' rfl)

/-- `binder_dec_ref` refuses to count below zero, and deletes the reference
when both counts are zero. -/
theorem dec_ref_spec (h : Linked s) (hr : s.refs a = some r) (hn : s.nodes r.node = some n)
    (strong : Bool) :
    (r.count strong = 0 ∧ binder_dec_ref s a strong = some (s, false)) ∨
    (r.count strong ≠ 0 ∧ ∃ w, binder_dec_ref s a strong =
      (if (r.set_count strong (toInt32 (r.count strong - 1))).strong = 0 ∧
          (r.set_count strong (toInt32 (r.count strong - 1))).weak = 0 then
        binder_delete_ref (counted_down s a r n strong w) a
      else some (counted_down s a r n strong w)).map (·, true)) := by
  unfold binder_dec_ref
  rw [hr]
  simp only
  by_cases hzero : r.count strong = 0
  · exact .inl ⟨hzero, by rw [if_pos hzero]⟩
  refine .inr ⟨hzero, ?_⟩
  rw [if_neg hzero]
  simp only [bind_eq_bind]
  have hrefs : n.refs ≠ [] := ne_nil_of_mem (h.mem_refs hr hn)
  have hnode : (r.set_count strong (toInt32 (r.count strong - 1))).node = r.node :=
    congrArg (·.2.1) (set_count_links r strong _)
  have hn' : (s.set_ref a (r.set_count strong (toInt32 (r.count strong - 1)))).nodes r.node =
    some n := hn
  obtain ⟨w, hback⟩ := give_back_spec hn' hrefs
    (strong && decide ((r.set_count strong (toInt32 (r.count strong - 1))).strong = 0))
  refine ⟨w, ?_⟩
  rw [hnode, hback, bind_some]
  rfl

/-! ### New references -/

theorem free_desc_ge (ds : List Nat) {desc k : Nat} (hdesc : k ≤ desc) (hds : ∀ d ∈ ds, k ≤ d)
    (hroom : desc + ds.length < 2 ^ 32) : k ≤ free_desc ds desc := by
  induction ds generalizing desc with
  | nil => exact hdesc
  | cons d ds ih => ?_
  have hd := hds d (by simp)
  rw [length_cons] at hroom
  unfold free_desc
  split
  · exact hdesc
  rw [add32_eq (by omega)]
  exact ih (by omega) (fun e he => hds e (by simp [he])) (by omega)

/-- The loop finds a descriptor that is not in use. -/
theorem free_desc_notMem {ds : List Nat} (h : ds.Pairwise fun a b => a < b) {desc : Nat}
    (hroom : desc + ds.length < 2 ^ 32) : free_desc ds desc ∉ ds := by
  induction ds generalizing desc with
  | nil => simp
  | cons d ds ih => ?_
  rw [pairwise_cons] at h
  rw [length_cons] at hroom
  unfold free_desc
  split
  · rename_i hgt
    intro hmem
    rcases mem_cons.mp hmem with heq | hmem
    · omega
    have := h.1 desc hmem
    omega
  -- `desc` is in use or was passed: the loop goes on behind `d`, and no later
  -- descriptor is as small as that.
  rw [add32_eq (by omega), mem_cons, not_or]
  have hge := free_desc_ge ds (Nat.le_refl (d + 1)) h.1 (by omega)
  exact ⟨by omega, ih h.2 (by omega)⟩

/-- As many references as there is memory for. -/
theorem length_of_aligned {l : List Nat} (hnd : l.Nodup)
    (h : ∀ a ∈ l, 8 ∣ a ∧ 0 < a ∧ a < 2 ^ 32) : l.length ≤ 2 ^ 29 := by
  -- Each takes 8 bytes at least.
  have hinj : (l.map (· / 8)).Nodup := by
    rw [nodup_map_iff_inj_on hnd]
    intro a ha b hb hab
    obtain ⟨i, rfl⟩ := (h a ha).1
    obtain ⟨j, rfl⟩ := (h b hb).1
    omega
  have hsub : l.map (· / 8) ⊆ List.range (2 ^ 29) := by
    intro i hi
    obtain ⟨a, ha, rfl⟩ := mem_map.mp hi
    have := (h a ha).2.2
    rw [mem_range]
    omega
  have hle := (subperm_of_subset hinj hsub).length_le
  rwa [length_map, length_range] at hle

/-- `binder_get_ref_for_node` finds the reference of the process to the node
or makes one. -/
theorem get_ref_for_node_spec (h : Linked s) (hn : s.nodes x = some n) (proc : Nat)
    (addr : Option Nat) :
    binder_get_ref_for_node s proc x addr = some (s, none) ∨
    (∃ ref r, binder_get_ref_for_node s proc x addr = some (s, some ref) ∧
      s.refs ref = some r ∧ r.proc = proc ∧ r.node = x) ∨
    (∃ ref desc, binder_get_ref_for_node s proc x addr =
        some (add_ref s proc x ref desc n, some ref) ∧
      s.refs ref = none ∧ s.nodes ref = none ∧ Linked (add_ref s proc x ref desc n)) := by
  unfold binder_get_ref_for_node
  simp only
  cases hlook : lookup s.ref_node x (s.procs proc).refs_by_node with
  | some ref =>
    right; left
    obtain ⟨⟨r, hr, hproc⟩, hkey⟩ := (h.by_node proc).lookup_some.mp hlook
    have hnode : r.node = x := by simpa [RefState.ref_node, hr] using hkey
    exact ⟨ref, r, rfl, hr, hproc, hnode⟩
  | none => ?_
  cases hk : s.kzalloc addr with
  | none => exact .inl rfl
  | some ref => ?_
  right; right
  obtain ⟨_, hunused⟩ := filter_eq_some_iff.mp hk
  simp only [RefState.unused, Bool.and_eq_true, decide_eq_true_eq, isNone_iff_eq_none] at hunused
  obtain ⟨⟨haligned, hnodes⟩, hrefs⟩ := hunused
  generalize hd : free_desc ((s.procs proc).refs_by_desc.toList.map s.ref_desc)
    (if s.binder_context_mgr_node = some x then 0 else 1) = desc
  have hdesc : lookup s.ref_desc desc (s.procs proc).refs_by_desc = none := by
    have hidx : Indexes s.ref_desc (s.owns_ref proc) (s.procs proc).refs_by_desc :=
      h.by_desc proc
    -- With so few references the loop cannot wrap around.
    have hlen := length_of_aligned hidx.nodup (by
      intro a ha
      obtain ⟨r, hr, _⟩ := (hidx.mem a).mp ha
      exact h.aligned a r hr)
    have hfree := free_desc_notMem (pairwise_map.mpr hidx.sorted)
      (show (if s.binder_context_mgr_node = some x then 0 else 1) +
        ((s.procs proc).refs_by_desc.toList.map s.ref_desc).length < 2 ^ 32 by
          rw [length_map]
          split <;> omega)
    rw [hd] at hfree
    rw [hidx.lookup_none]
    intro a ha heq
    exact hfree (mem_map.mpr ⟨a, (hidx.mem a).mpr ha, heq⟩)
  rw [hdesc, hn]
  exact ⟨ref, desc, rfl, hrefs, hnodes, h.add_ref hn hrefs haligned hlook hdesc⟩

end calls

end Nubernel.Binder
