import Nubernel.Framework.System
import Nubernel.PrioTree.Expand
import Nubernel.PrioTree.Search

/-! # Priority search trees: a set of intervals

The tree over time. Its user sets up nodes, puts them into the tree and takes
them out again; nodes in the tree are not changed.
-/

open Function LTS List Option

namespace Nubernel.PrioTree

/-! ## State -/

/-- The tree, and the nodes that its user has in it. -/
structure World where
  st : State
  nodes : List Nat

/-- An interval that a node may have. -/
def Interval (start last : Nat) : Prop := start ≤ last ∧ last < 2 ^ 32

instance (start last : Nat) : Decidable (Interval start last) :=
  inferInstanceAs (Decidable (_ ∧ _))

/-- The fields `start` and `last` of a node are written. -/
def set_interval (heap : Heap) (p start last : Nat) : Heap :=
  { heap with
    start := update heap.start p start
    last := update heap.last p last }

/-! ## Labels -/

inductive Label where
  /-- A node that is not in the tree gets its interval. -/
  | setup (p start last : Nat)
  | insert (p : Nat)
  | remove (p : Nat)
deriving DecidableEq

/-! ## System -/

/-- `prio_tree_insert`, and what its user keeps of it: the node is in the tree if it
is the one that is returned. -/
def World.insert (w : World) (p : Nat) : Option World :=
  (prio_tree_insert w.st p).map fun (q, st) =>
    { st := st, nodes := if q = p ∧ p ∉ w.nodes then p :: w.nodes else w.nodes }

def World.remove (w : World) (p : Nat) : Option World :=
  (prio_tree_remove w.st p).map fun st => { st := st, nodes := w.nodes.erase p }

/-- A step is refused if it is not one of the user's, or hits a `BUG`. -/
def World.next (w : World) : Label → Option World
  | .setup p start last =>
    if p ∉ w.nodes ∧ Interval start last then
      some { w with st := { w.st with heap := set_interval w.st.heap p start last } }
    else none
  | .insert p =>
    if p ≠ 0 ∧ Interval (w.st.heap.start p) (w.st.heap.last p) then w.insert p else none
  | .remove p => if p ∈ w.nodes then w.remove p else none

def prioTree : System World Label :=
  System.ofFun (fun w => w.st.root = INIT_PRIO_TREE_ROOT ∧ w.nodes = []) World.next

/-! ## Invariant -/

/-- The nodes of the user are those of a tree. -/
def Inv (w : World) : Prop :=
  w.nodes.Nodup ∧ ∃ lay, Tree w.st.root.index_bits w.st lay ∧ ∀ p, p ∈ w.nodes ↔ Member lay p

variable {w w' : World} {s : State} {lay : Layout} {p : Nat}

theorem inv_init (hroot : w.st.root = INIT_PRIO_TREE_ROOT) (hnodes : w.nodes = []) :
    Inv w := by
  obtain ⟨⟨heap, root⟩, nodes⟩ := w
  subst hroot hnodes
  refine ⟨nodup_nil, fun _ => none, tree_empty (Nat.le_refl 1) (Nat.le_add_left 1 31), ?_⟩
  intro p
  refine iff_of_false not_mem_nil ?_
  rintro ⟨π, hπ⟩
  cases hπ

/-- Writing the interval of a node outside of the tree. -/
theorem Tree.set_interval {start last : Nat} (ht : Tree s.root.index_bits s lay)
    (hp : ¬Member lay p) :
    Tree s.root.index_bits { s with heap := set_interval s.heap p start last } lay := by
  have hne : ∀ {π q}, lay π = some q → q ≠ p := by
    rintro π q hq rfl
    exact hp ⟨π, hq⟩
  have hstart : ∀ {π q}, lay π = some q →
      (PrioTree.set_interval s.heap p start last).start q = s.heap.start q := by
    intro π q hq
    exact update_of_ne (hne hq) _ _
  have hlast : ∀ {π q}, lay π = some q →
      (PrioTree.set_interval s.heap p start last).last q = s.heap.last q := by
    intro π q hq
    exact update_of_ne (hne hq) _ _
  refine ⟨⟨ht.links.hang.congr fun q _ => ⟨rfl, rfl, rfl⟩, ht.links.root⟩, ⟨?_, ?_, ?_⟩,
    ht.bits_pos, ht.bits_le⟩
  · intro b π q q' hq hq'
    unfold Prior
    rw [hstart hq, hstart hq', hlast hq, hlast hq']
    exact ht.wf.order b π q q' hq hq'
  · intro π q hq
    have hkey : key (PrioTree.set_interval s.heap p start last) s.root.index_bits q =
        key s.heap s.root.index_bits q := by
      funext n
      unfold key
      rw [hstart hq, hlast hq]
    rw [hkey]
    exact ht.wf.follows hq
  intro π q hq
  unfold Fits
  rw [hstart hq, hlast hq]
  exact ht.wf.fits hq

/-- **What `prio_tree_insert` does with a set of intervals.** -/
theorem insert_spec (ht : Tree s.root.index_bits s lay) (hp : p ≠ 0)
    (hint : Interval (s.heap.start p) (s.heap.last p)) :
    (∃ q, Member lay q ∧ Equal s.heap q p ∧ prio_tree_insert s p = some (q, s)) ∨
      (∀ q, Member lay q → ¬Equal s.heap q p) ∧
        ∃ s' lay', prio_tree_insert s p = some (p, s') ∧ Inserted s lay p s' lay' := by
  by_cases hfound : ∃ q, Member lay q ∧ Equal s.heap q p
  · obtain ⟨q, hq, heq⟩ := hfound
    exact .inl ⟨q, hq, heq, prio_tree_insert_found ht hq heq⟩
  have hdiffers : ∀ q, Member lay q → ¬Equal s.heap q p := fun q hq heq => hfound ⟨q, hq, heq⟩
  exact .inr ⟨hdiffers, prio_tree_insert_new ht hp hint.1 hint.2 hdiffers⟩

theorem inv_insert (hinv : Inv w) (hp : p ≠ 0)
    (hint : Interval (w.st.heap.start p) (w.st.heap.last p)) (hstep : w.insert p = some w') :
    Inv w' := by
  obtain ⟨hnodup, lay, ht, hmem⟩ := hinv
  unfold World.insert at hstep
  rcases insert_spec ht hp hint with ⟨q, hq, heq, hins⟩ | ⟨hdiffers, s', lay', hins, hi⟩
  · rw [hins] at hstep
    obtain rfl := some.inj hstep
    by_cases hnew : q = p ∧ p ∉ w.nodes
    · rw [← hnew.1, hmem] at hnew
      exact absurd hq hnew.2
    simp only [if_neg hnew]
    exact ⟨hnodup, lay, ht, hmem⟩
  have hout : p ∉ w.nodes := fun h => hdiffers p ((hmem p).mp h) ⟨rfl, rfl⟩
  rw [hins] at hstep
  obtain rfl := some.inj hstep
  show Inv { st := s', nodes := if p = p ∧ p ∉ w.nodes then p :: w.nodes else w.nodes }
  rw [if_pos ⟨rfl, hout⟩]
  refine ⟨nodup_cons.mpr ⟨hout, hnodup⟩, lay', hi.tree, ?_⟩
  intro q
  rw [mem_cons, hi.members, hmem, or_comm]

/-- The tree after a node has been taken out, with the number of bits that it has
then. -/
theorem Removed.tree_bits {s' : State} {lay' : Layout} {node : Nat}
    (hr : Removed s.root.index_bits s lay node s' lay') :
    ∃ lay'', Tree s'.root.index_bits s' lay'' ∧ ∀ p, Member lay'' p ↔ Member lay' p := by
  rcases hr.root with ⟨hbits, _⟩ | ⟨hbits, hnull, hnone⟩
  · refine ⟨lay', ?_, fun _ => Iff.rfl⟩
    rw [hbits]
    exact hr.tree
  obtain ⟨heap, root, bits⟩ := s'
  subst hbits hnull
  refine ⟨fun _ => none, tree_empty (Nat.le_refl 1) (Nat.le_add_left 1 31), ?_⟩
  intro p
  refine iff_of_false ?_ (hnone p)
  rintro ⟨π, hπ⟩
  cases hπ

theorem inv_remove (hinv : Inv w) (hp : p ∈ w.nodes) (hstep : w.remove p = some w') : Inv w' := by
  obtain ⟨hnodup, lay, ht, hmem⟩ := hinv
  obtain ⟨π, hπ⟩ := (hmem p).mp hp
  obtain ⟨s', lay', hrem, hr⟩ := prio_tree_remove_spec ht hπ
  unfold World.remove at hstep
  rw [hrem] at hstep
  obtain rfl := some.inj hstep
  obtain ⟨lay'', ht'', hmem''⟩ := hr.tree_bits
  refine ⟨hnodup.erase p, lay'', ht'', ?_⟩
  intro q
  rw [hnodup.mem_erase_iff, hmem'', hr.members, hmem, and_comm]

theorem reachable_inv (hw : prioTree.Reachable w) : Inv w := by
  refine System.invariant ?_ ?_ hw
  · intro w hinit
    exact inv_init hinit.1 hinit.2
  intro w l w' hinv hstep
  change w.next l = some w' at hstep
  cases l with
  | setup p start last =>
    rw [World.next] at hstep
    by_cases hcond : p ∉ w.nodes ∧ Interval start last
    · rw [if_pos hcond] at hstep
      obtain rfl := some.inj hstep
      obtain ⟨hnodup, lay, ht, hmem⟩ := hinv
      exact ⟨hnodup, lay, ht.set_interval fun h => hcond.1 ((hmem p).mpr h), hmem⟩
    rw [if_neg hcond] at hstep
    cases hstep
  | insert p =>
    rw [World.next] at hstep
    by_cases hcond : p ≠ 0 ∧ Interval (w.st.heap.start p) (w.st.heap.last p)
    · rw [if_pos hcond] at hstep
      exact inv_insert hinv hcond.1 hcond.2 hstep
    rw [if_neg hcond] at hstep
    cases hstep
  | remove p => ?_
  rw [World.next] at hstep
  by_cases hcond : p ∈ w.nodes
  · rw [if_pos hcond] at hstep
    exact inv_remove hinv hcond hstep
  rw [if_neg hcond] at hstep
  cases hstep

/-! ## Results -/

/-- **Queries, insertions and removals in every reachable state.** A query returns
the nodes that overlap the interval, each of them once, and comes to an end. An
insertion returns an equal node of the tree if there is one, and the new node
otherwise; it and the removal of a node of the tree always come back, so that no
`BUG` is hit. -/
theorem prio_tree_correct {w : World} (hw : prioTree.Reachable w) :
    (∀ r h, r ≤ h → ∃ l, Yields w.st (prio_tree_iter_init r h) l ∧ l.Nodup ∧
      ∀ p, p ∈ l ↔ p ∈ w.nodes ∧ Overlaps w.st.heap r h p) ∧
    (∀ p, p ≠ 0 → Interval (w.st.heap.start p) (w.st.heap.last p) →
      ∃ q s', prio_tree_insert w.st p = some (q, s') ∧ (w.next (.insert p)).isSome ∧
        ((∃ q' ∈ w.nodes, Equal w.st.heap q' p) → q ∈ w.nodes ∧ Equal w.st.heap q p) ∧
        ((¬∃ q' ∈ w.nodes, Equal w.st.heap q' p) → q = p ∧ q ∉ w.nodes)) ∧
    ∀ p ∈ w.nodes, (prio_tree_remove w.st p).isSome ∧ (w.next (.remove p)).isSome := by
  obtain ⟨hnodup, lay, ht, hmem⟩ := reachable_inv hw
  refine ⟨?_, ?_, ?_⟩
  · intro r h _
    obtain ⟨l, hyields, hnodup', hl⟩ := query_spec ht r h
    refine ⟨l, hyields, hnodup', fun p => ?_⟩
    rw [hl, hmem]
  · intro p hp hint
    have hnext : w.next (.insert p) = w.insert p := by
      rw [World.next, if_pos ⟨hp, hint⟩]
    rcases insert_spec ht hp hint with ⟨q, hq, heq, hins⟩ | ⟨hdiffers, s', lay', hins, hi⟩
    · refine ⟨q, w.st, hins, ?_, fun _ => ⟨(hmem q).mpr hq, heq⟩, fun hno => ?_⟩
      · rw [hnext, World.insert, hins]
        rfl
      exact absurd ⟨q, (hmem q).mpr hq, heq⟩ hno
    refine ⟨p, s', hins, ?_, ?_, fun hno => ⟨rfl, fun h => hno ⟨p, h, rfl, rfl⟩⟩⟩
    · rw [hnext, World.insert, hins]
      rfl
    rintro ⟨q', hq', heq⟩
    exact absurd heq (hdiffers q' ((hmem q').mp hq'))
  intro p hp
  obtain ⟨π, hπ⟩ := (hmem p).mp hp
  obtain ⟨s', lay', hrem, _⟩ := prio_tree_remove_spec ht hπ
  rw [World.next, if_pos hp, World.remove, hrem]
  exact ⟨rfl, rfl⟩

/-- Four nodes, two of them with the same interval; one is taken out again. -/
def fourNodes : List Label :=
  [.setup 1 2 5, .insert 1, .setup 2 0 90, .insert 2, .setup 3 2 5, .insert 3, .setup 4 3 4,
    .insert 4, .remove 2]

theorem prio_tree_correct_fourNodes :
    ∃ w : World, w.nodes = [4, 1] ∧
      (∃ l, Yields w.st (prio_tree_iter_init 3 4) l ∧ l.Nodup ∧
        ∀ p, p ∈ l ↔ p ∈ w.nodes ∧ Overlaps w.st.heap 3 4 p) ∧
      (prio_tree_remove w.st 4).isSome := by
  have hinit : prioTree.init ⟨⟨⟨id, id, id, id, id⟩, INIT_PRIO_TREE_ROOT⟩, []⟩ := ⟨rfl, rfl⟩
  obtain ⟨w, hreach, hnodes⟩ : ∃ w, prioTree.Reachable w ∧ w.nodes = [4, 1] :=
    System.exists_of_replay fourNodes hinit (by decide +kernel)
  obtain ⟨hquery, _, hremove⟩ := prio_tree_correct hreach
  refine ⟨w, hnodes, hquery 3 4 (by decide), (hremove 4 ?_).1⟩
  rw [hnodes]
  exact mem_cons_self

end Nubernel.PrioTree
