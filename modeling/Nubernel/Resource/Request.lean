import Nubernel.Resource.Model

/-! # resource: requests

A request is granted if the range is inside of the root and apart from all children.
-/

set_option linter.style.nameCheck false

open List

namespace Nubernel.Resource

/-! ## Ranges -/

/-- No address in common. -/
def Res.Apart (a b : Res) : Prop := a.end_ < b.start ∨ b.end_ < a.start

def Res.Within (a b : Res) : Prop := b.start ≤ a.start ∧ a.end_ ≤ b.end_

/-- The children of a resource are sorted, disjoint and inside of it, and know their
parent. -/
structure Good (n : Node) : Prop where
  nonempty : ∀ c ∈ n.child, c.start ≤ c.end_
  sorted : n.child.Pairwise fun a b => a.end_ < b.start
  within : ∀ c ∈ n.child, c.res.Within n.res
  parent : ∀ c ∈ n.child, c.res.parent = some n.id

section nodes
variable (n : Node)

@[simp] theorem setParent_child (p : Nat) : (n.setParent p).child = n.child := rfl

@[simp] theorem setChild_child (l : List Node) : (n.setChild l).child = l := rfl

theorem setChild_self : n.setChild n.child = n := by
  cases n
  rfl

end nodes

/-! ## The loop -/

section loop
variable {root new : Node} {before l : List Node}

/-- Where a request leads along the children: between those below and those above the
range, or to the first child that has an address in common with it. -/
inductive Walk (root new : Node) (all : List Node) : Request → Prop where
  | linked (pre post : List Node) (hall : all = pre ++ post)
      (hpre : ∀ c ∈ pre, c.end_ < new.start) (hpost : ∀ c ∈ post, new.end_ < c.start) :
      Walk root new all (.linked (root.setChild (pre ++ new.setParent root.id :: post)))
  | conflict (pre : List Node) (first : Node) (post : List Node) (hall : all = pre ++ first :: post)
      (hpre : ∀ c ∈ pre, c.end_ < new.start) (hstart : first.start ≤ new.end_)
      (hend : new.start ≤ first.end_) : Walk root new all (.conflict pre first post)

theorem request_loop_walk (hsorted : l.Pairwise fun a b => a.end_ < b.start)
    (hne : ∀ c ∈ l, c.start ≤ c.end_) (hbefore : ∀ c ∈ before, c.end_ < new.start) :
    Walk root new (before ++ l) (request_loop root new before l) := by
  induction l generalizing before with
  | nil =>
    exact .linked before [] rfl hbefore (by simp)
  | cons tmp l ih => ?_
  have htail := pairwise_cons.mp hsorted
  rw [request_loop]
  by_cases hstart : tmp.start > new.end_
  · rw [if_pos hstart]
    refine .linked before (tmp :: l) rfl hbefore ?_
    intro c hc
    rcases mem_cons.mp hc with rfl | hc
    · exact hstart
    have hlt := htail.1 c hc
    have hle := hne tmp mem_cons_self
    omega
  rw [if_neg hstart]
  by_cases hend : tmp.end_ < new.start
  · rw [if_pos hend]
    have hwalk := @ih (before ++ [tmp]) htail.2 (fun c hc => hne c (mem_cons_of_mem tmp hc))
      (by
        intro c hc
        rcases mem_append.mp hc with hc | hc
        · exact hbefore c hc
        rw [mem_singleton.mp hc]
        exact hend)
    rw [append_assoc] at hwalk
    exact hwalk
  rw [if_neg hend]
  exact .conflict before tmp l rfl hbefore (by omega) (by omega)

end loop

/-! ## `__request_resource` -/

section request
variable {root new : Node}

section
variable (hroot : Good root) (hnew : new.start ≤ new.end_)
include hroot hnew

theorem __request_resource_spec :
    (¬new.res.Within root.res ∧ __request_resource root new = .root) ∨
      (new.res.Within root.res ∧ Walk root new root.child (__request_resource root new)) := by
  unfold __request_resource
  rw [if_neg (by omega)]
  by_cases hstart : new.start < root.start
  · rw [if_pos hstart]
    refine .inl ⟨?_, rfl⟩
    intro hin
    exact absurd hin.1 (Nat.not_le.mpr hstart)
  rw [if_neg hstart]
  by_cases hend : new.end_ > root.end_
  · rw [if_pos hend]
    refine .inl ⟨?_, rfl⟩
    intro hin
    exact absurd hin.2 (Nat.not_le.mpr hend)
  rw [if_neg hend]
  exact .inr ⟨⟨Nat.not_lt.mp hstart, Nat.not_lt.mp hend⟩,
    request_loop_walk hroot.sorted hroot.nonempty fun c hc => absurd hc not_mem_nil⟩

/-- The range can be requested. -/
def Requestable (root : Node) (start stop : Nat) : Prop :=
  root.start ≤ start ∧ stop ≤ root.end_ ∧ ∀ c ∈ root.child, c.end_ < start ∨ stop < c.start

/-- The tree with one child more. -/
def Linked (root new root' : Node) : Prop :=
  ∃ pre post, root.child = pre ++ post ∧ (∀ c ∈ pre, c.end_ < new.start) ∧
    (∀ c ∈ post, new.end_ < c.start) ∧
    root' = root.setChild (pre ++ new.setParent root.id :: post)

/-- A request is granted iff the range is inside of the root and apart from all
children. -/
theorem __request_resource_linked (hreq : Requestable root new.start new.end_) :
    ∃ root', __request_resource root new = .linked root' ∧ Linked root new root' := by
  obtain ⟨hstart, hend, hfree⟩ := hreq
  rcases __request_resource_spec hroot hnew with ⟨hout, _⟩ | ⟨_, hwalk⟩
  · exact absurd ⟨hstart, hend⟩ hout
  generalize hres : __request_resource root new = r at hwalk
  cases hwalk with
  | linked pre post hall hpre hpost => exact ⟨_, rfl, pre, post, hall, hpre, hpost, rfl⟩
  | conflict pre first post hall _ hlo hhi =>
    have hmem : first ∈ root.child := mem_iff_append.mpr ⟨_, _, hall⟩
    have hap := hfree first hmem
    omega

theorem requestable_of_linked {root' : Node} (h : __request_resource root new = .linked root') :
    Requestable root new.start new.end_ ∧ Linked root new root' := by
  rcases __request_resource_spec hroot hnew with ⟨_, heq⟩ | ⟨hin, hwalk⟩
  · rw [h] at heq
    cases heq
  rw [h] at hwalk
  cases hwalk with
  | linked pre post hall hpre hpost =>
    refine ⟨⟨hin.1, hin.2, ?_⟩, pre, post, hall, hpre, hpost, rfl⟩
    intro c hc
    rw [hall] at hc
    rcases mem_append.mp hc with hc | hc
    · exact .inl (hpre c hc)
    · exact .inr (hpost c hc)

end

end request

end Nubernel.Resource
