import Nubernel.PrioTree.Insert

/-! # Priority search trees: removing

`prio_tree_remove` goes down from the node to a leaf, always to the child that
belongs above the other, and then moves each node on this way up by one place.
-/

open Function List Option Positions

namespace Nubernel.PrioTree

/-! ## Down to a leaf -/

/-- The way from `π` down to a position, always to the child that belongs above the
other. -/
inductive Chosen (heap : Heap) (lay : Layout) (π : Pos) : Pos → Prop where
  | here : Chosen heap lay π π
  | down {τ : Pos} {b : Bool} : Chosen heap lay π τ →
      (∀ p d, lay (b :: τ) = some p → lay ((!b) :: τ) = some d → Prior heap p d) →
      Chosen heap lay π (b :: τ)

theorem Chosen.suffix {heap : Heap} {lay : Layout} {π σ : Pos} (h : Chosen heap lay π σ) :
    π <:+ σ := by
  induction h with
  | here => exact suffix_rfl
  | down _ _ ih => exact ih.trans (suffix_cons _ _)

section find
variable {bits : Nat} {s : State} {lay : Layout} {π : Pos}

theorem find_leaf_round {fuel cur : Nat} (ht : Tree bits s lay) (hcur : lay π = some cur) :
    (∀ b, lay (b :: π) = none) ∧ find_leaf (fuel + 1) s.heap cur = some cur ∨
    ∃ b child, lay (b :: π) = some child ∧
      (∀ p d, lay (b :: π) = some p → lay ((!b) :: π) = some d → Prior s.heap p d) ∧
      find_leaf (fuel + 1) s.heap cur = find_leaf fuel s.heap child := by
  have hh := ht.links.hang
  have hleft := hh.left_empty hcur
  have hright := hh.right_empty hcur
  rw [find_leaf]
  cases hl : lay (false :: π) with
  | none =>
    have hle := hleft.mpr hl
    cases hr : lay (true :: π) with
    | none =>
      left
      refine ⟨?_, if_pos ⟨hle, hright.mpr hr⟩⟩
      intro b
      cases b with
      | false => exact hl
      | true => exact hr
    | some r => ?_
    right
    refine ⟨true, r, hr, ?_, ?_⟩
    · intro p d _ hd
      rw [Bool.not_true, hl] at hd
      cases hd
    have hre : ¬prio_tree_right_empty s.heap cur = true := fun h => by
      rw [hright.mp h] at hr
      cases hr
    rw [if_neg fun h => hre h.2, if_pos hle, hh.right_eq hcur hr]
  | some l => ?_
  have hle : ¬prio_tree_left_empty s.heap cur = true := fun h => by
    rw [hleft.mp h] at hl
    cases hl
  right
  rw [if_neg fun h => hle h.1, if_neg hle]
  cases hr : lay (true :: π) with
  | none =>
    rw [if_pos (hright.mpr hr)]
    refine ⟨false, l, hl, ?_, ?_⟩
    · intro p d _ hd
      rw [Bool.not_false, hr] at hd
      cases hd
    rw [hh.left_eq hcur hl]
  | some r => ?_
  have hre : ¬prio_tree_right_empty s.heap cur = true := fun h => by
    rw [hright.mp h] at hr
    cases hr
  rw [if_neg hre, hh.left_eq hcur hl, hh.right_eq hcur hr]
  by_cases hge : s.heap.last l ≥ s.heap.last r
  · rw [if_pos hge]
    refine ⟨false, l, hl, ?_, rfl⟩
    intro p d hp hd
    rw [hl, Option.some.injEq] at hp
    rw [Bool.not_false, hr, Option.some.injEq] at hd
    rw [← hp, ← hd]
    by_cases htie : s.heap.last l = s.heap.last r
    · exact prior_of_tie (ht.wf.fits hl) (ht.wf.fits hr) (ht.wf.follows hl) (ht.wf.follows hr) htie
    left
    omega
  rw [if_neg hge]
  refine ⟨true, r, hr, ?_, rfl⟩
  intro p d hp hd
  rw [hr, Option.some.injEq] at hp
  rw [Bool.not_true, hl, Option.some.injEq] at hd
  rw [← hp, ← hd]
  left
  omega

/-- **The first loop ends at a leaf.** -/
theorem find_leaf_spec {fuel cur : Nat} {ρ : Pos} (ht : Tree bits s lay) (hcur : lay ρ = some cur)
    (hchosen : Chosen s.heap lay π ρ) (hfuel : bits + 32 < fuel + ρ.length) :
    ∃ σ leaf, find_leaf fuel s.heap cur = some leaf ∧ lay σ = some leaf ∧
      (∀ b, lay (b :: σ) = none) ∧ Chosen s.heap lay π σ := by
  induction fuel generalizing ρ cur with
  | zero =>
    have hdepth := ht.wf.depth ht.bits_le ht.links.hang.closed hcur
    omega
  | succ fuel ih => ?_
  rcases @find_leaf_round _ _ _ _ fuel _ ht hcur with ⟨hleaf, hfind⟩ | ⟨b, child, hchild, hb, hfind⟩
  · exact ⟨ρ, cur, hfind, hcur, hleaf, hchosen⟩
  rw [hfind]
  exact ih hchild (hchosen.down hb) (by rw [length_cons]; omega)

end find

/-! ## Up again -/

/-- The nodes below `ρ` have moved up, and the one that was there is out of the
tree. -/
structure Lifted (bits : Nat) (s : State) (lay : Layout) (ρ : Pos) (cur : Nat) (s' : State)
    (lay' : Layout) : Prop where
  tree : Tree bits s' lay'
  keeps : Keeps s s'
  place : lay ρ = some cur
  out : ¬Member lay' cur
  members : ∀ p, Member lay' p ∨ p = cur ↔ Member lay p
  parent : s'.heap.parent cur = s.heap.parent cur
  outside : ∀ τ, ¬ρ <:+ τ → lay' τ = lay τ
  below : ∀ q, lay' ρ = some q → Prior s.heap cur q
  frame : ∀ p, ¬Member lay p → s'.heap.left p = s.heap.left p ∧ s'.heap.right p = s.heap.right p ∧
    s'.heap.parent p = s.heap.parent p

section move
variable {bits : Nat} {s : State} {lay : Layout} {π : Pos}

theorem Tree.cut_leaf {b : Bool} {leaf : Nat} (ht : Tree bits s lay) (hleaf : lay (b :: π) = some leaf)
    (hnone : ∀ c, lay (c :: b :: π) = none) :
    Lifted bits s lay (b :: π) leaf { s with heap := PrioTree.cut_leaf s.heap leaf }
      (update lay (b :: π) none) := by
  have hh := ht.links.hang
  obtain ⟨q, hq, hcut, hhang⟩ := hh.cut_leaf hleaf hnone
  have hint := intervals_set_child s.heap b q q
  rw [← hcut] at hint
  refine ⟨⟨⟨hhang, ?_⟩, ht.wf.cut.congr hint.1 hint.2, ht.bits_pos, ht.bits_le⟩,
    ⟨hint.1, hint.2, rfl⟩, hleaf, ?_, ?_, ?_, ?_, ?_, ?_⟩
  · rw [update_of_ne (cons_ne_nil _ _).symm]
    exact ht.links.root
  · rintro ⟨σ, hσ⟩
    rcases update_cases hσ with ⟨_, h⟩ | ⟨hσb, h⟩
    · cases h
    · exact hσb (hh.inj h hleaf)
  · intro p
    constructor
    · rintro (⟨σ, hσ⟩ | rfl)
      · rcases update_cases hσ with ⟨_, h⟩ | ⟨_, h⟩
        · cases h
        · exact ⟨σ, h⟩
      exact ⟨b :: π, hleaf⟩
    rintro ⟨σ, hσ⟩
    by_cases hσb : σ = b :: π
    · rw [hσb, hleaf, Option.some.injEq] at hσ
      exact .inr hσ.symm
    exact .inl ⟨σ, by rw [update_of_ne hσb]; exact hσ⟩
  · rw [hcut, parent_set_child]
  · intro τ hτ
    rw [update_of_ne]
    rintro rfl
    exact hτ suffix_rfl
  · intro q hq
    rw [update_self] at hq
    cases hq
  intro p hp
  have hpq : q ≠ p := Member.ne ⟨π, hq⟩ hp
  have hchild : ∀ c, (PrioTree.cut_leaf s.heap leaf).child c p = s.heap.child c p := by
    intro c
    rw [hcut, child_set_child, if_neg fun h => hpq h.2.symm]
  refine ⟨hchild false, hchild true, ?_⟩
  rw [hcut, parent_set_child]

/-- A node takes the place of its parent. -/
theorem Lifted.up {s' : State} {lay' : Layout} {b : Bool} {τ : Pos} {cur : Nat} (ht : Tree bits s lay)
    (hl : Lifted bits s lay (b :: τ) cur s' lay')
    (hb : ∀ p d, lay (b :: τ) = some p → lay ((!b) :: τ) = some d → Prior s.heap p d) :
    ∃ q s'' lay'', lay τ = some q ∧ s'.heap.parent cur = q ∧
      prio_tree_replace s' q cur = some s'' ∧ Lifted bits s lay τ q s'' lay'' := by
  have hh := ht.links.hang
  have hh' := hl.tree.links.hang
  obtain ⟨q, hq, hparent⟩ := hh.exists_parent hl.place
  -- What is not deeper is as before.
  have hshort : ∀ σ, σ.length ≤ τ.length → lay' σ = lay σ := by
    intro σ hσ
    refine hl.outside σ fun h => ?_
    have hle := h.length_le
    rw [length_cons] at hle
    omega
  have hq' : lay' τ = some q := by
    rw [hshort τ (Nat.le_refl _)]
    exact hq
  have hqcur : Prior s.heap q cur := ht.wf.order b τ q cur hq hl.place
  obtain ⟨s'', hreplace, hr⟩ := hl.tree.links.replace hq' hl.out (hh.nonzero hl.place)
  have hk : Keeps s' s'' := ⟨hr.start, hr.last, hr.bits⟩
  have hcurfits := ht.wf.fits hl.place
  have hcurfollows := (ht.wf.follows hl.place).2
  rw [← hl.keeps.fits_iff] at hcurfits
  rw [← hl.keeps.key_eq] at hcurfollows
  -- Above and below, the node that moves up is in order.
  have habove : ∀ c ρ m, τ = c :: ρ → lay' ρ = some m → Prior s'.heap m cur := by
    rintro c ρ m rfl hm
    rw [hshort ρ (Nat.le_succ _)] at hm
    rw [hl.keeps.prior_iff]
    exact (ht.wf.order c ρ m q hm hq).trans hqcur
  have hbelow : ∀ c m, lay' (c :: τ) = some m → Prior s'.heap cur m := by
    intro c m hm
    rw [hl.keeps.prior_iff]
    by_cases hcb : c = b
    · subst hcb
      exact hl.below m hm
    rw [hl.outside (c :: τ) fun h => by
      have heq := h.eq_of_length rfl
      exact hcb (cons.inj heq).1.symm, Bool.eq_not_of_ne hcb] at hm
    exact hb cur m hl.place hm
  have hwf := hl.tree.wf.replace hh'.inj hq' hcurfollows hcurfits habove hbelow
  have hqc : q ≠ cur := (hh.child_ne hq hl.place).symm
  refine ⟨q, s'', lay'.rename q cur, hq, hl.parent.trans hparent, hreplace,
    ⟨⟨hr.links, ?_, ?_, ?_⟩, hl.keeps.trans hk, hq, not_member_rename hqc, ?_, ?_, ?_, ?_, ?_⟩⟩
  · exact hwf.congr hr.start hr.last
  · exact hl.tree.bits_pos
  · exact hl.tree.bits_le
  · intro p
    rw [member_rename hq' hl.out, hl.members]
  · rw [hr.parent]
    cases τ with
    | nil => rw [hh'.top hq', hh.top hq]
    | cons c ρ => ?_
    obtain ⟨m, hm, hqm⟩ := hh.exists_parent hq
    rw [hqm]
    refine hh'.parent ?_ hq'
    rw [hshort ρ (Nat.le_succ _)]
    exact hm
  · intro σ hσ
    have hσb : ¬b :: τ <:+ σ := fun h => hσ ((suffix_cons b τ).trans h)
    unfold Layout.rename
    rw [hl.outside σ hσb]
    cases hp : lay σ with
    | none => rfl
    | some p => ?_
    refine congrArg some (rename_of_ne ?_)
    rintro rfl
    rw [hh.inj hp hq] at hσ
    exact hσ suffix_rfl
  · intro m hm
    rw [rename_at hq', Option.some.injEq] at hm
    rw [← hm]
    exact hqcur
  intro p hp
  have hp' : ¬Member lay' p := fun h => hp ((hl.members p).mp (.inl h))
  have hpc : cur ≠ p := Member.ne ⟨b :: τ, hl.place⟩ hp
  obtain ⟨hleft, hright, hpar⟩ := hl.frame p hp
  obtain ⟨hleft', hright', hpar'⟩ := hr.frame p hp' hpc.symm
  exact ⟨hleft'.trans hleft, hright'.trans hright, hpar'.trans hpar⟩

/-- **The second loop takes the node out.** -/
theorem move_up_spec {fuel cur node : Nat} {ρ : Pos} {s' : State} {lay' : Layout} (ht : Tree bits s lay)
    (hnode : lay π = some node) (hchosen : Chosen s.heap lay π ρ)
    (hl : Lifted bits s lay ρ cur s' lay') (hfuel : ρ.length < fuel + π.length) :
    ∃ s'' lay'', move_up fuel s' cur node = some s'' ∧ Lifted bits s lay π node s'' lay'' := by
  induction fuel generalizing ρ cur s' lay' with
  | zero =>
    have hle := hchosen.suffix.length_le
    omega
  | succ fuel ih => ?_
  rw [move_up]
  cases hchosen with
  | here =>
    obtain rfl : cur = node := by
      have heq := hl.place
      rw [hnode, Option.some.injEq] at heq
      exact heq.symm
    rw [if_pos rfl]
    exact ⟨s', lay', rfl, hl⟩
  | down hchosen hb => ?_
  have hne : cur ≠ node := by
    rintro rfl
    have hle := hchosen.suffix.length_le
    rw [ht.links.hang.inj hnode hl.place, length_cons] at hle
    omega
  obtain ⟨q, s'', lay'', _, hparent, hreplace, hl'⟩ := hl.up ht hb
  rw [if_neg hne, hparent, hreplace]
  exact ih hchosen hl' (by rw [length_cons] at hfuel; omega)

end move

/-! ## `prio_tree_remove` -/

/-- The tree after a node has been removed. -/
structure Removed (bits : Nat) (s : State) (lay : Layout) (node : Nat) (s' : State)
    (lay' : Layout) : Prop where
  tree : Tree bits s' lay'
  start : s'.heap.start = s.heap.start
  last : s'.heap.last = s.heap.last
  members : ∀ p, Member lay' p ↔ Member lay p ∧ p ≠ node
  frame : ∀ p, ¬Member lay p → s'.heap.left p = s.heap.left p ∧ s'.heap.right p = s.heap.right p ∧
    s'.heap.parent p = s.heap.parent p
  /-- The number of bits stays, or the tree is empty. -/
  root : s'.root.index_bits = s.root.index_bits ∧ lay' [] ≠ none ∨
    s'.root.index_bits = 1 ∧ s'.root.prio_tree_node = 0 ∧ ∀ p, ¬Member lay' p

theorem wf_empty (heap : Heap) (bits : Nat) : WF heap bits fun _ => none := by
  refine ⟨?_, ?_, ?_⟩
  · intro b π p q h
    cases h
  · intro π p h
    cases h
  intro π p h
  cases h

theorem tree_empty {heap : Heap} {bits index_bits : Nat} (hpos : 1 ≤ bits) (hle : bits ≤ 32) :
    Tree bits ⟨heap, ⟨0, index_bits⟩⟩ fun _ => none := by
  refine ⟨⟨⟨?_, ?_, ?_, ?_, ?_, ?_, ?_⟩, rfl⟩, wf_empty heap bits, hpos, hle⟩
  · intro b π h
    exact absurd rfl h
  · intro π σ p h
    cases h
  · intro π p h
    cases h
  · intro π p h
    cases h
  · intro π p h
    cases h
  · intro p h
    cases h
  intro b π p q h
  cases h

/-- **`prio_tree_remove` takes the node out of the tree.** -/
theorem prio_tree_remove_spec {bits : Nat} {s : State} {lay : Layout} {π : Pos} {node : Nat} (ht : Tree bits s lay)
    (hnode : lay π = some node) :
    ∃ s' lay', prio_tree_remove s node = some s' ∧ Removed bits s lay node s' lay' := by
  have hh := ht.links.hang
  have hbits := ht.bits_le
  obtain ⟨σ, leaf, hfind, hleaf, hnone, hchosen⟩ :=
    @find_leaf_spec _ _ _ _ LEVELS _ _ ht hnode .here (by unfold LEVELS; omega)
  unfold prio_tree_remove
  rw [hfind]
  cases σ with
  | nil =>
    -- The node is the only one.
    have hπ : π = [] := suffix_nil.mp hchosen.suffix
    subst hπ
    rw [hnode, Option.some.injEq] at hleaf
    subst hleaf
    have honly : ∀ p, Member lay p → p = node := by
      rintro p ⟨τ, hτ⟩
      rcases suffix_cases (nil_suffix (l := τ)) with rfl | ⟨b, hb⟩
      · rw [hnode, Option.some.injEq] at hτ
        exact hτ.symm
      exact absurd (hnone b) (hh.closed.of_suffix hb (by rw [hτ]; exact some_ne_none p))
    simp only
    rw [if_pos ((hh.root_iff hnode).mpr rfl), if_neg (not_not_intro (ht.links.root_eq hnode))]
    refine ⟨_, fun _ => none, rfl, tree_empty ht.bits_pos ht.bits_le, rfl, rfl, ?_, ?_, .inr ⟨rfl, rfl, ?_⟩⟩
    · intro p
      constructor
      · rintro ⟨τ, hτ⟩
        cases hτ
      rintro ⟨hp, hne⟩
      exact absurd (honly p hp) hne
    · intro p _
      exact ⟨rfl, rfl, rfl⟩
    rintro p ⟨τ, hτ⟩
    cases hτ
  | cons b σ =>
    have hroot : ¬prio_tree_root s.heap leaf = true := fun h => by
      cases (hh.root_iff hleaf).mp h
    have hdepth := ht.wf.depth ht.bits_le hh.closed hleaf
    have hcut := ht.cut_leaf hleaf hnone
    obtain ⟨s', lay', hmove, hl⟩ := @move_up_spec _ _ _ _ LEVELS _ _ _ _ _ ht hnode hchosen hcut
      (by unfold LEVELS; omega)
    have hmembers : ∀ p, Member lay' p ↔ Member lay p ∧ p ≠ node := by
      intro p
      constructor
      · intro hp
        refine ⟨(hl.members p).mp (.inl hp), ?_⟩
        rintro rfl
        exact hl.out hp
      rintro ⟨hp, hne⟩
      exact ((hl.members p).mpr hp).resolve_right hne
    -- Another node is left: the root, or the leaf.
    have hother : ∃ p, Member lay p ∧ p ≠ node := by
      by_cases hleafnode : leaf = node
      · obtain ⟨r, hr⟩ := hh.exists_top hleaf
        refine ⟨r, ⟨[], hr⟩, ?_⟩
        rw [← hleafnode]
        rintro rfl
        cases hh.inj hr hleaf
      exact ⟨leaf, ⟨_, hleaf⟩, hleafnode⟩
    have htop : lay' [] ≠ none := by
      obtain ⟨p, hp⟩ := hother
      obtain ⟨τ, hτ⟩ := (hmembers p).mpr hp
      exact ne_none_iff_exists'.mpr (hl.tree.links.hang.exists_top hτ)
    simp only
    rw [if_neg hroot, hmove]
    exact ⟨s', lay', rfl, hl.tree, hl.keeps.start, hl.keeps.last, hmembers, hl.frame,
      .inl ⟨hl.keeps.bits, htop⟩⟩

end Nubernel.PrioTree
