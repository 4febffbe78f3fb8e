import Nubernel.Resource.Request

/-! # resource: insertion

`__insert_resource` goes down through the resources that contain the new one. Where it
stops, the children that are inside of the new resource become its children.
-/

set_option linter.style.nameCheck false

open List

namespace Nubernel.Resource

/-! ## Trees -/

/-- The second node is below the first one. -/
inductive Below : Node → Node → Prop where
  | child {n c : Node} (h : c ∈ n.child) : Below n c
  | deep {n c m : Node} (h : c ∈ n.child) (hm : Below c m) : Below n m

/-- A tree of resources. -/
structure WF (root : Node) : Prop where
  good : Good root
  below : ∀ m, Below root m → Good m

/-- Disjoint, or one inside of the other. -/
def Res.Nested (a b : Res) : Prop := a.Apart b ∨ a.Within b ∨ b.Within a

def Res.StrictlyWithin (a b : Res) : Prop := a.Within b ∧ ¬b.Within a

section trees
variable {root n m c : Node}

theorem below_iff : Below n m ↔ m ∈ n.child ∨ ∃ c ∈ n.child, Below c m := by
  constructor
  · intro h
    cases h with
    | child h => exact .inl h
    | deep h hm => exact .inr ⟨_, h, hm⟩
  rintro (h | ⟨c, hc, hm⟩)
  · exact .child h
  · exact .deep hc hm

theorem WF.child (h : WF root) (hc : c ∈ root.child) : WF c :=
  ⟨h.below c (.child hc), fun m hm => h.below m (.deep hc hm)⟩

theorem WF.of_below (h : WF root) (hm : Below root m) : WF m := by
  induction hm with
  | child hc => exact h.child hc
  | deep hc _ ih => exact ih (h.child hc)

theorem WF.of_children (hgood : Good root) (h : ∀ c ∈ root.child, WF c) : WF root := by
  refine ⟨hgood, ?_⟩
  intro m hm
  rcases below_iff.mp hm with hc | ⟨c, hc, hm⟩
  · exact (h m hc).good
  · exact (h c hc).below m hm

theorem Res.Within.trans {a b c : Res} (hab : a.Within b) (hbc : b.Within c) : a.Within c :=
  ⟨Nat.le_trans hbc.1 hab.1, Nat.le_trans hab.2 hbc.2⟩

/-- What is below is inside, and not empty. -/
theorem WF.within (h : WF root) (hm : Below root m) :
    m.res.Within root.res ∧ m.start ≤ m.end_ := by
  induction hm with
  | child hc => exact ⟨h.good.within _ hc, h.good.nonempty _ hc⟩
  | deep hc _ ih =>
    obtain ⟨hin, hne⟩ := ih (h.child hc)
    exact ⟨hin.trans (h.good.within _ hc), hne⟩

theorem sizeOf_lt_of_below (hm : Below n m) : sizeOf m < sizeOf n := by
  induction hm with
  | child hc => exact sizeOf_lt_of_child hc
  | deep hc _ ih => exact Nat.lt_trans ih (sizeOf_lt_of_child hc)

/-- Two children of one resource. -/
theorem Good.trichotomy {pre post : List Node} {d : Node} (h : Good root)
    (hall : root.child = pre ++ c :: post) (hd : d ∈ root.child) :
    d ∈ pre ∧ d.end_ < c.start ∨ d = c ∨ d ∈ post ∧ c.end_ < d.start := by
  have hsorted := h.sorted
  rw [hall, pairwise_append, pairwise_cons] at hsorted
  rw [hall] at hd
  rcases mem_append.mp hd with hd | hd
  · exact .inl ⟨hd, hsorted.2.2 d hd c mem_cons_self⟩
  rcases mem_cons.mp hd with rfl | hd
  · exact .inr (.inl rfl)
  · exact .inr (.inr ⟨hd, hsorted.2.1.1 d hd⟩)

def Node.Covers (n : Node) (x : Nat) : Prop := n.start ≤ x ∧ x ≤ n.end_

/-- An address is in one child. -/
theorem Good.eq_of_covers {d : Node} {x : Nat} (h : Good root) (hc : c ∈ root.child)
    (hd : d ∈ root.child) (hcx : c.Covers x) (hdx : d.Covers x) : c = d := by
  obtain ⟨pre, post, hall⟩ := append_of_mem hd
  obtain ⟨hlo, hhi⟩ := hcx
  obtain ⟨hlo', hhi'⟩ := hdx
  rcases h.trichotomy hall hc with ⟨_, hlt⟩ | heq | ⟨_, hlt⟩
  · omega
  · exact heq
  · omega

theorem within_iff : n.res.Within m.res ↔ ¬(n.start < m.start ∨ n.end_ > m.end_) := by
  show m.start ≤ n.start ∧ n.end_ ≤ m.end_ ↔ _
  omega

theorem strictlyWithin_iff : n.res.StrictlyWithin m.res ↔
    ¬(m.start > n.start ∨ m.end_ < n.end_ ∨ (m.start = n.start ∧ m.end_ = n.end_)) := by
  rw [Res.StrictlyWithin, within_iff, within_iff]
  omega

end trees

/-! ## What the insertion does -/

/-- The tree after the insertion. The new resource takes the place of a run of children,
or goes below a child that strictly contains it. -/
inductive Inserted (new : Node) : Node → Node → Prop where
  | here {root : Node} (pre run post : List Node) (hall : root.child = pre ++ (run ++ post))
      (hin : new.res.Within root.res) (hpre : ∀ c ∈ pre, c.end_ < new.start)
      (hrun : ∀ c ∈ run, c.res.Within new.res) (hpost : ∀ c ∈ post, new.end_ < c.start) :
      Inserted new root (root.setChild (pre ++ new.adopt root.id run :: post))
  | deeper {root first first' : Node} (pre post : List Node)
      (hall : root.child = pre ++ first :: post) (hin : new.res.StrictlyWithin first.res)
      (h : Inserted new first first') : Inserted new root (root.setChild (pre ++ first' :: post))

/-- A resource that stands in the way: it has an address in common with the new one, and
neither is inside of the other. -/
def Blocks (new : Node) (root conflict : Node) : Prop :=
  Below root conflict ∧ ¬conflict.res.Nested new.res

/-- What `__insert_resource` comes to. -/
inductive Insertion (root new : Node) : Option Node × Node → Prop where
  | outside (hout : ¬new.res.Within root.res) : Insertion root new (some root, root)
  | blocked (conflict : Node) (hin : new.res.Within root.res) (h : Blocks new root conflict) :
      Insertion root new (some conflict, root)
  | done (root' : Node) (h : Inserted new root root') : Insertion root new (none, root')

section insertion
variable {root new : Node}

/-- The loop over the siblings from the first conflict on. -/
theorem covered_run_spec {next : Node} {post : List Node}
    (hsorted : (next :: post).Pairwise fun a b => a.end_ < b.start)
    (hne : ∀ c ∈ next :: post, c.start ≤ c.end_) (hlo : next.start ≤ new.end_) :
    (∃ c ∈ next :: post, covered_run new next post = .error c ∧ c.start ≤ new.end_ ∧
      ¬c.res.Within new.res ∧ (c ≠ next → next.res.Within new.res)) ∨
    (∃ run rest, covered_run new next post = .ok (run, rest) ∧ next :: post = run ++ rest ∧
      (∀ c ∈ run, c.res.Within new.res) ∧ ∀ c ∈ rest, new.end_ < c.start) := by
  induction post generalizing next with
  | nil =>
    rw [covered_run]
    by_cases hpart : next.start < new.start ∨ next.end_ > new.end_
    · rw [if_pos hpart]
      exact .inl ⟨next, mem_cons_self, rfl, hlo, fun h => within_iff.mp h hpart,
        fun h => absurd rfl h⟩
    rw [if_neg hpart]
    refine .inr ⟨[next], [], rfl, rfl, ?_, by simp⟩
    intro c hc
    rw [mem_singleton.mp hc]
    exact within_iff.mpr hpart
  | cons sibling post ih => ?_
  have htail := pairwise_cons.mp hsorted
  rw [covered_run]
  by_cases hpart : next.start < new.start ∨ next.end_ > new.end_
  · rw [if_pos hpart]
    exact .inl ⟨next, mem_cons_self, rfl, hlo, fun h => within_iff.mp h hpart,
      fun h => absurd rfl h⟩
  rw [if_neg hpart]
  have hnext : next.res.Within new.res := within_iff.mpr hpart
  by_cases habove : sibling.start > new.end_
  · rw [if_pos habove]
    refine .inr ⟨[next], sibling :: post, rfl, rfl, ?_, ?_⟩
    · intro c hc
      rw [mem_singleton.mp hc]
      exact hnext
    intro c hc
    rcases mem_cons.mp hc with rfl | hc
    · exact habove
    have hlt := (pairwise_cons.mp htail.2).1 c hc
    have hle := hne sibling (by simp)
    omega
  rw [if_neg habove]
  rcases ih htail.2 (fun c hc => hne c (mem_cons_of_mem next hc)) (by omega) with
    ⟨c, hc, heq, hstart, hout, _⟩ | ⟨run, rest, heq, hsplit, hrun, hrest⟩
  · exact .inl ⟨c, mem_cons_of_mem next hc, by rw [heq]; rfl, hstart, hout, fun _ => hnext⟩
  refine .inr ⟨next :: run, rest, by rw [heq]; rfl, by rw [hsplit]; rfl, ?_, hrest⟩
  exact forall_mem_cons.mpr ⟨hnext, hrun⟩

/-- The resource that the loop over the siblings stops at is in the way. -/
theorem blocks_of_error {pre post : List Node} {first c : Node} (hroot : Good root)
    (hall : root.child = pre ++ first :: post)
    (hend : new.start ≤ first.end_) (hfirst : ¬new.res.StrictlyWithin first.res)
    (hc : c ∈ first :: post) (hstart : c.start ≤ new.end_) (hout : ¬c.res.Within new.res)
    (hbefore : c ≠ first → first.res.Within new.res) : Blocks new root c := by
  have hmem : c ∈ root.child := by
    rw [hall]
    exact mem_append_right pre hc
  refine ⟨.child hmem, ?_⟩
  have hcne := hroot.nonempty c hmem
  by_cases heq : c = first
  · subst heq
    rintro ((h | h) | h | h)
    · exact absurd hend (Nat.not_le.mpr h)
    · exact absurd hstart (Nat.not_le.mpr h)
    · exact hout h
    · exact hfirst ⟨h, hout⟩
  -- The first one is before it and inside of the new one.
  have hlt : first.end_ < c.start := by
    have hsorted := hroot.sorted
    rw [hall, pairwise_append, pairwise_cons] at hsorted
    rcases mem_cons.mp hc with h | h
    · exact absurd h heq
    · exact hsorted.2.1.1 c h
  rintro ((h | h) | h | h)
  · have h' : c.end_ < new.start := h
    omega
  · exact absurd hstart (Nat.not_le.mpr h)
  · exact hout h
  have h' : c.start ≤ new.start := h.1
  omega

theorem __insert_resource_spec (hroot : WF root) (hchild : new.child = [])
    (hnew : new.start ≤ new.end_) : Insertion root new (__insert_resource root new) := by
  -- Down the tree, along the calls.
  induction hsize : sizeOf root using Nat.strongRecOn generalizing root with
  | _ size ih =>
  subst hsize
  have hspec := __request_resource_spec hroot.good hnew
  rw [__insert_resource]
  split
  · rename_i root' hreq
    rw [hreq] at hspec
    rcases hspec with ⟨_, h⟩ | ⟨hin, hwalk⟩
    · cases h
    cases hwalk with
    | linked pre post hall hpre hpost =>
      have hadopt : new.setParent root.id = new.adopt root.id [] := by
        unfold Node.setParent Node.adopt
        rw [hchild]
        rfl
      rw [hadopt]
      exact .done _ (.here pre [] post hall hin hpre (by simp) hpost)
  · rename_i hreq
    rw [hreq] at hspec
    rcases hspec with ⟨hout, _⟩ | ⟨_, hwalk⟩
    · exact .outside hout
    · cases hwalk
  rename_i pre first post hreq
  rw [hreq] at hspec
  rcases hspec with ⟨_, h⟩ | ⟨hin, hwalk⟩
  · cases h
  cases hwalk with
  | conflict _ _ _ hall hpre hlo hhi =>
    have hmem : first ∈ root.child := mem_iff_append.mpr ⟨_, _, hall⟩
    have hsorted := hroot.good.sorted
    rw [hall, pairwise_append] at hsorted
    by_cases hstop : first.start > new.start ∨ first.end_ < new.end_ ∨
        (first.start = new.start ∧ first.end_ = new.end_)
    · rw [if_pos hstop]
      have hnot : ¬new.res.StrictlyWithin first.res := fun h => strictlyWithin_iff.mp h hstop
      have hne : ∀ c ∈ first :: post, c.start ≤ c.end_ := by
        intro c hc
        refine hroot.good.nonempty c ?_
        rw [hall]
        exact mem_append_right pre hc
      rcases covered_run_spec hsorted.2.1 hne hlo with
        ⟨c, hc, heq, hstart, hout, hbefore⟩ | ⟨run, rest, heq, hsplit, hrun, hrest⟩
      · rw [heq]
        exact .blocked c hin (blocks_of_error hroot.good hall hhi hnot hc hstart hout hbefore)
      rw [heq]
      rw [hsplit] at hall
      exact .done _ (.here pre run rest hall hin hpre hrun hrest)
    rw [if_neg hstop]
    have hstrict : new.res.StrictlyWithin first.res := strictlyWithin_iff.mpr hstop
    have hbelow := ih (sizeOf first) (sizeOf_lt_of_child hmem) (hroot.child hmem) rfl
    generalize __insert_resource first new = below at hbelow
    cases hbelow with
    | outside hout => exact absurd hstrict.1 hout
    | blocked conflict _ hblocks =>
      have hsame : root.setChild (pre ++ first :: post) = root := by
        rw [← hall, setChild_self]
      simp only [hsame]
      exact .blocked conflict hin ⟨.deep hmem hblocks.1, hblocks.2⟩
    | done first' hins => exact .done _ (.deeper pre post hall hstrict hins)

end insertion

end Nubernel.Resource
