import Nubernel.Resource.Insert

/-! # resource: the tree after an insertion

The insertion keeps the tree and all of its resources; the new one is below the
smallest resource that strictly contains it and above the largest ones inside of it.
Expanding the new resource until it can be inserted leads to the smallest range that
is nested with all resources.
-/

open Nat hiding or_left_comm
open List

namespace Nubernel.Resource

/-! ## The tree is kept -/

/-- What does not change in a resource that stays in the tree. -/
def Node.key (n : Node) : Nat × Nat × Nat := (n.id, n.start, n.end_)

/-- There is such a resource below the root. -/
def Has (root : Node) (key : Nat × Nat × Nat) : Prop := ∃ m, Below root m ∧ m.key = key

variable {key : Nat × Nat × Nat}

section kept
variable {root root' new : Node}

theorem has_iff :
    Has root key ↔ ∃ c ∈ root.child, c.key = key ∨ Has c key := by
  constructor
  · rintro ⟨m, hm, hkey⟩
    rcases below_iff.mp hm with hc | ⟨c, hc, hm⟩
    · exact ⟨m, hc, .inl hkey⟩
    · exact ⟨c, hc, .inr ⟨m, hm, hkey⟩⟩
  rintro ⟨c, hc, hkey | ⟨m, hm, hkey⟩⟩
  · exact ⟨c, .child hc, hkey⟩
  · exact ⟨m, .deep hc hm, hkey⟩

variable {n : Node} {p : Nat}

theorem has_setParent :
    Has (n.setParent p) key ↔ Has n key := by
  rw [has_iff, has_iff, setParent_child]

theorem wf_setParent (h : WF n) : WF (n.setParent p) := by
  refine .of_children ⟨h.good.nonempty, h.good.sorted, h.good.within, h.good.parent⟩ ?_
  intro c hc
  exact h.child hc

theorem Inserted.res_eq (h : Inserted new root root') : root'.res = root.res := by
  cases h with
  | here => rfl
  | deeper => rfl

theorem Inserted.within (h : Inserted new root root') (hroot : WF root) :
    new.res.Within root.res := by
  induction h with
  | here _ _ _ _ hin => exact hin
  | deeper pre post hall hin _ _ =>
    refine hin.1.trans (hroot.good.within _ ?_)
    rw [hall]
    exact mem_append_right pre mem_cons_self

theorem wf_leaf (res : Res) : WF (.mk res []) := by
  refine .of_children ?_ ?_
  · constructor <;> simp [Node.child]
  intro c hc
  cases hc

variable {run : List Node}

/-- The children that go under the new resource. -/
theorem wf_adopt (hwf : ∀ c ∈ run, WF c) (hne : ∀ c ∈ run, c.start ≤ c.end_)
    (hsorted : run.Pairwise fun a b => a.end_ < b.start) (hrun : ∀ c ∈ run, c.res.Within new.res) :
    WF (new.adopt p run) := by
  have hmem : ∀ c, c ∈ (new.adopt p run).child ↔ ∃ d ∈ run, d.setParent new.id = c := by
    intro c
    exact mem_map
  refine .of_children ⟨?_, ?_, ?_, ?_⟩ ?_
  · intro c hc
    obtain ⟨d, hd, rfl⟩ := (hmem c).mp hc
    exact hne d hd
  · exact pairwise_map.mpr hsorted
  · intro c hc
    obtain ⟨d, hd, rfl⟩ := (hmem c).mp hc
    exact hrun d hd
  · intro c hc
    obtain ⟨d, hd, rfl⟩ := (hmem c).mp hc
    rfl
  intro c hc
  obtain ⟨d, hd, rfl⟩ := (hmem c).mp hc
  exact wf_setParent (hwf d hd)

/-- A list of children around a new one. -/
theorem WF.around {pre mid post : List Node} {n : Node} (h : WF root)
    (hall : root.child = pre ++ (mid ++ post)) (hn : WF n) (hne : n.start ≤ n.end_)
    (hin : n.res.Within root.res) (hparent : n.res.parent = some root.id)
    (hpre : ∀ c ∈ pre, c.end_ < n.start) (hpost : ∀ c ∈ post, n.end_ < c.start) :
    WF (root.setChild (pre ++ n :: post)) := by
  have hmem : ∀ c, c ∈ pre ++ n :: post → c = n ∨ c ∈ root.child := by
    intro c hc
    rw [hall]
    rcases mem_append.mp hc with hc | hc
    · exact .inr (mem_append_left _ hc)
    rcases mem_cons.mp hc with rfl | hc
    · exact .inl rfl
    · exact .inr (mem_append_right pre (mem_append_right mid hc))
  have hsorted := h.good.sorted
  rw [hall, pairwise_append, pairwise_append] at hsorted
  obtain ⟨hspre, ⟨_, hspost, _⟩, hcross⟩ := hsorted
  refine .of_children ⟨?_, ?_, ?_, ?_⟩ ?_
  · intro c hc
    rcases hmem c hc with rfl | hc
    · exact hne
    · exact h.good.nonempty c hc
  · rw [setChild_child, pairwise_append, pairwise_cons]
    refine ⟨hspre, ⟨hpost, hspost⟩, ?_⟩
    intro c hc d hd
    rcases mem_cons.mp hd with rfl | hd
    · exact hpre c hc
    · exact hcross c hc d (mem_append_right mid hd)
  · intro c hc
    rcases hmem c hc with rfl | hc
    · exact hin
    · exact h.good.within c hc
  · intro c hc
    rcases hmem c hc with rfl | hc
    · exact hparent
    · exact h.good.parent c hc
  intro c hc
  rcases hmem c hc with rfl | hc
  · exact hn
  · exact h.child hc

theorem mem_of_run {pre post : List Node} (hall : root.child = pre ++ (run ++ post)) :
    ∀ c ∈ run, c ∈ root.child := by
  intro c hc
  rw [hall]
  exact mem_append_right pre (mem_append_left post hc)

/-- **The tree is still one.** -/
theorem Inserted.wf (h : Inserted new root root') (hroot : WF root)
    (hnew : new.start ≤ new.end_) : WF root' := by
  induction h with
  | @here root pre run post hall hin hpre hrun hpost =>
    have hmem : ∀ c ∈ run, c ∈ root.child := mem_of_run hall
    have hsorted := hroot.good.sorted
    rw [hall, pairwise_append, pairwise_append] at hsorted
    refine hroot.around hall ?_ hnew hin rfl hpre hpost
    exact wf_adopt (fun c hc => hroot.child (hmem c hc))
      (fun c hc => hroot.good.nonempty c (hmem c hc)) hsorted.2.1.1 hrun
  | @deeper root first first' pre post hall hin hins ih => ?_
  have hfirst : first ∈ root.child := mem_iff_append.mpr ⟨_, _, hall⟩
  have hres := hins.res_eq
  have hkeep : first'.start = first.start ∧ first'.end_ = first.end_ := by
    unfold Node.start Node.end_
    rw [hres]
    exact ⟨rfl, rfl⟩
  have hsorted := hroot.good.sorted
  rw [hall, pairwise_append, pairwise_cons] at hsorted
  refine @WF.around root pre [first] post first' hroot hall (ih (hroot.child hfirst)) ?_ ?_ ?_ ?_ ?_
  · rw [hkeep.1, hkeep.2]
    exact hroot.good.nonempty first hfirst
  · rw [hres]
    exact hroot.good.within first hfirst
  · rw [hres]
    exact hroot.good.parent first hfirst
  · intro c hc
    rw [hkeep.1]
    exact hsorted.2.2 c hc first mem_cons_self
  intro c hc
  rw [hkeep.2]
  exact hsorted.2.1.1 c hc

theorem has_adopt :
    Has (new.adopt p run) key ↔ ∃ c ∈ run, c.key = key ∨ Has c key := by
  rw [has_iff]
  constructor
  · rintro ⟨c, hc, h⟩
    obtain ⟨d, hd, rfl⟩ := mem_map.mp hc
    rw [has_setParent] at h
    exact ⟨d, hd, h⟩
  rintro ⟨d, hd, h⟩
  refine ⟨d.setParent new.id, mem_map.mpr ⟨d, hd, rfl⟩, ?_⟩
  rw [has_setParent]
  exact h

/-- **Every resource is still there**, and one more. -/
theorem Inserted.has (h : Inserted new root root') (key : Nat × Nat × Nat) :
    Has root' key ↔ key = new.key ∨ Has root key := by
  induction h with
  | @here root pre run post hall hin hpre hrun hpost =>
    have hnew : (new.adopt root.id run).key = key ↔ key = new.key := eq_comm
    rw [has_iff, has_iff, hall, setChild_child]
    simp only [mem_append, mem_cons, or_and_right, exists_or, exists_eq_left, has_adopt, hnew]
    rw [or_assoc, or_left_comm]
  | @deeper root first first' pre post hall hin hins ih => ?_
  have hkey : first'.key = first.key := by
    unfold Node.key Node.id Node.start Node.end_
    rw [hins.res_eq]
  rw [has_iff, has_iff, hall, setChild_child]
  simp only [mem_append, mem_cons, or_and_right, exists_or, exists_eq_left, ih, hkey]
  -- The new key comes to the front.
  rw [@or_left_comm (first.key = key), or_assoc, or_left_comm]

end kept

/-! ## Where the new resource is -/

/-- A largest resource below the root that is inside of the new one. -/
structure Maximal (root new m : Node) : Prop where
  below : Below root m
  within : m.res.Within new.res
  top : ∀ d, Below root d → d.res.Within new.res → ¬Below d m

/-- The smallest resource that strictly contains the new one, or the root if there is
none. -/
def Smallest (root new : Node) (res : Res) : Prop :=
  (res = root.res ∧ ∀ m, Below root m → ¬new.res.StrictlyWithin m.res) ∨
    ∃ q, Below root q ∧ q.res = res ∧ new.res.StrictlyWithin q.res ∧
      ∀ d, Below root d → new.res.StrictlyWithin d.res → q.res.Within d.res ∧ ¬Below q d

/-- The new resource in the tree: its parent and its children. -/
def Placed (root new root' : Node) : Prop :=
  ∃ p n, (p = root' ∨ Below root' p) ∧ n ∈ p.child ∧ n.key = new.key ∧
    n.res.parent = some p.id ∧ Smallest root new p.res ∧
    ∀ c, c ∈ n.child ↔ ∃ m, Maximal root new m ∧ c = m.setParent new.id

section placed
variable {root root' new : Node}

theorem not_below_self {n : Node} : ¬Below n n := fun h => lt_irrefl _ (sizeOf_lt_of_below h)

/-- What has an address in common with a child is that child or below it, or above all
of them. -/
theorem below_child {c m : Node} {x : Nat} (hroot : WF root) (hc : c ∈ root.child)
    (hm : Below root m) (hxc : c.start ≤ x ∧ x ≤ c.end_) (hxm : m.start ≤ x ∧ x ≤ m.end_) :
    m = c ∨ Below c m := by
  rcases below_iff.mp hm with hd | ⟨d, hd, hmd⟩
  · exact .inl (hroot.good.eq_of_covers hd hc hxm hxc)
  obtain ⟨⟨hlo, hhi⟩, _⟩ := (hroot.child hd).within hmd
  have hlo' : d.start ≤ m.start := hlo
  have hhi' : m.end_ ≤ d.end_ := hhi
  obtain rfl := hroot.good.eq_of_covers hd hc ⟨by omega, by omega⟩ hxc
  exact .inr hmd

variable {pre post : List Node} {m : Node} {a b : Res}

/-- Ranges that are apart are not inside of each other. -/
theorem not_within_of_apart (ha : a.start ≤ a.end_) (h : a.Apart b) : ¬a.Within b := by
  rintro ⟨h1, h2⟩
  unfold Res.Apart at h
  omega

theorem Res.Apart.symm (h : a.Apart b) : b.Apart a := Or.symm h

section here
variable {run : List Node} (hroot : WF root) (hall : root.child = pre ++ (run ++ post))
  (hpre : ∀ c ∈ pre, c.end_ < new.start) (hrun : ∀ c ∈ run, c.res.Within new.res)
  (hpost : ∀ c ∈ post, new.end_ < c.start)
include hroot hall hpre hrun hpost

/-- What is inside of a run of children. -/
theorem here_below (hm : Below root m) :
    m.res.Apart new.res ∨ m.res.Within new.res ∧ ∃ c ∈ run, m = c ∨ Below c m := by
  have hcases : ∃ c ∈ root.child, (m = c ∨ Below c m) ∧ c.start ≤ m.start ∧ m.end_ ≤ c.end_ := by
    rcases below_iff.mp hm with hc | ⟨c, hc, hmc⟩
    · exact ⟨m, hc, .inl rfl, le_refl _, le_refl _⟩
    · exact ⟨c, hc, .inr hmc, ((hroot.child hc).within hmc).1⟩
  obtain ⟨c, hc, hmc, hlo, hhi⟩ := hcases
  rw [hall] at hc
  rcases mem_append.mp hc with hc | hc
  · have hlt := hpre c hc
    exact .inl (.inl (lt_of_le_of_lt hhi hlt))
  rcases mem_append.mp hc with hc | hc
  · exact .inr ⟨Res.Within.trans ⟨hlo, hhi⟩ (hrun c hc), c, hc, hmc⟩
  have hlt := hpost c hc
  exact .inl (.inr (lt_of_lt_of_le hlt hlo))

theorem here_smallest (hnew : new.start ≤ new.end_) :
    ∀ m, Below root m → ¬new.res.StrictlyWithin m.res := by
  intro m hm hstrict
  rcases here_below hroot hall hpre hrun hpost hm with hap | ⟨hin, _⟩
  · exact not_within_of_apart hnew hap.symm hstrict.1
  · exact hstrict.2 hin

theorem here_maximal : Maximal root new m ↔ m ∈ run := by
  have hmem : ∀ c ∈ run, c ∈ root.child := mem_of_run hall
  constructor
  · intro hmax
    have hne := (hroot.within hmax.below).2
    rcases here_below hroot hall hpre hrun hpost hmax.below with hap | ⟨_, c, hc, rfl | hmc⟩
    · exact absurd hmax.within (not_within_of_apart hne hap)
    · exact hc
    · exact absurd hmc (hmax.top c (.child (hmem c hc)) (hrun c hc))
  intro hm
  refine ⟨.child (hmem m hm), hrun m hm, ?_⟩
  intro d hd _ hdm
  -- A child is below no other resource of the tree.
  have hne := hroot.good.nonempty m (hmem m hm)
  obtain ⟨⟨hlo, hhi⟩, _⟩ := (hroot.of_below hd).within hdm
  have hlo' : d.start ≤ m.start := hlo
  have hhi' : m.end_ ≤ d.end_ := hhi
  rcases below_child hroot (hmem m hm) hd ⟨le_refl _, hne⟩ ⟨hlo', by omega⟩ with rfl | hmd
  · exact not_below_self hdm
  have h1 := sizeOf_lt_of_below hdm
  have h2 := sizeOf_lt_of_below hmd
  omega

end here

section deeper
variable {first : Node} (hroot : WF root) (hnew : new.start ≤ new.end_) (hfirst : first ∈ root.child)
  (hin : new.res.StrictlyWithin first.res)
include hroot hnew hfirst hin

/-- Whatever has an address in common with the new resource is in the same subtree. -/
theorem deeper_below (hm : Below root m) (hmeet : ¬m.res.Apart new.res) :
    m = first ∨ Below first m := by
  have hlo : first.start ≤ new.start := hin.1.1
  have hhi : new.end_ ≤ first.end_ := hin.1.2
  have hne := (hroot.within hm).2
  have hmeet' : ¬(m.end_ < new.start ∨ new.end_ < m.start) := hmeet
  refine @below_child root first m (max m.start new.start) hroot hfirst hm ?_ ?_
  · omega
  · omega

theorem deeper_maximal : Maximal root new m ↔ Maximal first new m := by
  have hsame : ∀ d, Below root d → d.res.Within new.res → Below first d := by
    intro d hd hdin
    rcases deeper_below hroot hnew hfirst hin hd
        (fun hap => not_within_of_apart (hroot.within hd).2 hap hdin) with rfl | h
    · exact absurd hdin hin.2
    · exact h
  constructor
  · intro h
    exact ⟨hsame m h.below h.within, h.within, fun d hd => h.top d (.deep hfirst hd)⟩
  intro h
  exact ⟨.deep hfirst h.below, h.within, fun d hd hdin => h.top d (hsame d hd hdin) hdin⟩

theorem deeper_smallest {res : Res} (h : Smallest first new res) : Smallest root new res := by
  have hsame : ∀ d, Below root d → new.res.StrictlyWithin d.res → d = first ∨ Below first d := by
    intro d hd hdin
    exact deeper_below hroot hnew hfirst hin hd
      (fun hap => not_within_of_apart hnew hap.symm hdin.1)
  rcases h with ⟨rfl, hnone⟩ | ⟨q, hq, hres, hqin, hleast⟩
  · refine .inr ⟨first, .child hfirst, rfl, hin, ?_⟩
    intro d hd hdin
    rcases hsame d hd hdin with rfl | hbelow
    · exact ⟨⟨le_refl _, le_refl _⟩, not_below_self⟩
    · exact absurd hdin (hnone d hbelow)
  refine .inr ⟨q, .deep hfirst hq, hres, hqin, ?_⟩
  intro d hd hdin
  rcases hsame d hd hdin with rfl | hbelow
  · refine ⟨((hroot.child hfirst).within hq).1, ?_⟩
    intro hqd
    have h1 := sizeOf_lt_of_below hq
    have h2 := sizeOf_lt_of_below hqd
    omega
  exact hleast d hbelow hdin

end deeper

section
variable (h : Inserted new root root') (hroot : WF root) (hnew : new.start ≤ new.end_)
include h hroot hnew

/-- **Where the new resource is.** -/
theorem Inserted.placed : Placed root new root' := by
  induction h with
  | @here root pre run post hall hin hpre hrun hpost =>
    refine ⟨_, new.adopt root.id run, .inl rfl, mem_append_right pre mem_cons_self, rfl,
      rfl, .inl ⟨rfl, here_smallest hroot hall hpre hrun hpost hnew⟩, ?_⟩
    intro c
    simp only [here_maximal hroot hall hpre hrun hpost]
    have hmap : c ∈ run.map (fun next => next.setParent new.id) ↔
        ∃ m ∈ run, m.setParent new.id = c := mem_map
    simp only [eq_comm] at hmap
    exact hmap
  | @deeper root first first' pre post hall hin hins ih => ?_
  have hfirst : first ∈ root.child := mem_iff_append.mpr ⟨_, _, hall⟩
  obtain ⟨p, n, hp, hn, hkey, hparent, hsmall, hchildren⟩ := ih (hroot.child hfirst)
  have hmem : first' ∈ (root.setChild (pre ++ first' :: post)).child :=
    mem_append_right pre mem_cons_self
  refine ⟨p, n, .inr ?_, hn, hkey, hparent, deeper_smallest hroot hnew hfirst hin hsmall, ?_⟩
  · rcases hp with rfl | hp
    · exact .child hmem
    · exact .deep hmem hp
  intro c
  rw [hchildren]
  simp [deeper_maximal hroot hnew hfirst hin]

/-- All resources are nested with the new one. -/
theorem Inserted.nested : ∀ m, Below root m → m.res.Nested new.res := by
  induction h with
  | @here root pre run post hall hin hpre hrun hpost =>
    intro m hm
    rcases here_below hroot hall hpre hrun hpost hm with hap | ⟨hin, _⟩
    · exact .inl hap
    · exact .inr (.inl hin)
  | @deeper root first first' pre post hall hin hins ih => ?_
  have hfirst : first ∈ root.child := mem_iff_append.mpr ⟨_, _, hall⟩
  intro m hm
  by_cases hap : m.res.Apart new.res
  · exact .inl hap
  rcases deeper_below hroot hnew hfirst hin hm hap with rfl | hbelow
  · exact .inr (.inr hin.1)
  · exact ih (hroot.child hfirst) m hbelow

end

end placed

/-! ## Expanding -/

section expand
variable {root new conflict : Node}

/-- The conflict is inside of every range that contains the new resource and is nested with
all resources. -/
theorem Blocks.within_of_nested {i : Res} (h : Blocks new root conflict) (hin : new.res.Within i)
    (hnested : ∀ m, Below root m → m.res.Nested i) :
    conflict.res.Within i := by
  obtain ⟨hbelow, hnot⟩ := h
  rcases hnested conflict hbelow with hap | hwithin | hwithin
  · refine absurd (.inl ?_) hnot
    unfold Res.Apart Res.Within at *
    omega
  · exact hwithin
  · exact absurd (.inr (.inr (hin.trans hwithin))) hnot

/-- The range that covers the conflict. -/
theorem cover_within {i : Res} :
    (new.cover conflict).res.Within i ↔ new.res.Within i ∧ conflict.res.Within i := by
  show (i.start ≤ (if conflict.start < new.start then conflict.start else new.start) ∧
    (if conflict.end_ > new.end_ then conflict.end_ else new.end_) ≤ i.end_) ↔
      (i.start ≤ new.start ∧ new.end_ ≤ i.end_) ∧ i.start ≤ conflict.start ∧ conflict.end_ ≤ i.end_
  split <;> split <;> omega

/-- What the loop leads to. -/
structure Fits (root new root' new' : Node) : Prop where
  covers : new.res.Within new'.res
  inserted : Inserted new' root root'
  least : ∀ i : Res, new.res.Within i → (∀ m, Below root m → m.res.Nested i) →
    new'.res.Within i
  same : new'.id = new.id
  nonempty : new'.start ≤ new'.end_

/-- **The loop of `insert_resource_expand_to_fit`** ends. -/
theorem expand_loop_spec (hroot : WF root) (hids : ∀ m, Below root m → m.id ≠ root.id)
    (hchild : new.child = []) (hnew : new.start ≤ new.end_) (hin : new.res.Within root.res) :
    ∃ fuel root' new', expand_loop fuel root new = some (root', new') ∧
      Fits root new root' new' := by
  -- Each round takes addresses of the root that are not yet covered.
  induction hroom : (new.start - root.start) + (root.end_ - new.end_) using Nat.strongRecOn
    generalizing new with
  | _ room ih =>
  subst hroom
  have hspec := __insert_resource_spec hroot hchild hnew
  generalize hins : __insert_resource root new = result at hspec
  cases hspec with
  | outside hout => exact absurd hin hout
  | done root' h =>
    refine ⟨1, root', new, by rw [expand_loop, hins], ?_⟩
    exact ⟨⟨le_refl _, le_refl _⟩, h, fun i hi _ => hi, rfl, hnew⟩
  | blocked conflict _ hblocks => ?_
  obtain ⟨hcin, hcne⟩ := hroot.within hblocks.1
  have hcover : (new.cover conflict).res.Within root.res := cover_within.mpr ⟨hin, hcin⟩
  have hself := (@cover_within new conflict (new.cover conflict).res).mp ⟨le_refl _, le_refl _⟩
  have hpart : ¬conflict.res.Within new.res := fun h => hblocks.2 (.inr (.inl h))
  have h3 : root.start ≤ conflict.start := hcin.1
  have h4 : conflict.end_ ≤ root.end_ := hcin.2
  have h5 : ¬(new.start ≤ conflict.start ∧ conflict.end_ ≤ new.end_) := hpart
  have hstart : (new.cover conflict).start =
      if conflict.start < new.start then conflict.start else new.start := rfl
  have hend : (new.cover conflict).end_ =
      if conflict.end_ > new.end_ then conflict.end_ else new.end_ := rfl
  have hless : ((new.cover conflict).start - root.start) + (root.end_ - (new.cover conflict).end_) <
      (new.start - root.start) + (root.end_ - new.end_) := by
    rw [hstart, hend]
    split <;> split <;> omega
  have hne : (new.cover conflict).start ≤ (new.cover conflict).end_ := by
    rw [hstart, hend]
    split <;> split <;> omega
  obtain ⟨fuel, root', new', heq, hfits⟩ := @ih _ hless (new.cover conflict) hchild hne hcover rfl
  refine ⟨fuel + 1, root', new', ?_, ?_⟩
  · rw [expand_loop, hins]
    exact (if_neg (hids conflict hblocks.1)).trans heq
  refine ⟨hself.1.trans hfits.covers, hfits.inserted, ?_, hfits.same, hfits.nonempty⟩
  intro i hi hnested
  exact hfits.least i (cover_within.mpr ⟨hi, hblocks.within_of_nested hi hnested⟩) hnested

end expand

/-! ## Main theorem -/

/-- **Insertion into the tree of resources.** A new resource can be inserted iff it is
inside of the root and nested with all resources. Then the tree is still one, has all
its resources and the new one, which is below the smallest resource that strictly
contains it and has the largest ones inside of it as children. Otherwise the tree is
unchanged. Expanding to fit always ends, with the smallest range that contains the
given one and is nested with all resources. -/
theorem insert_resource_correct {root new : Node} (hroot : WF root)
    (hids : ∀ m, Below root m → m.id ≠ root.id) (hchild : new.child = [])
    (hparent : new.res.parent = none) (hnew : new.start ≤ new.end_) :
    ((__insert_resource root new).1 = none ↔
      new.res.Within root.res ∧ ∀ m, Below root m → m.res.Nested new.res) ∧
    ((__insert_resource root new).1 = none →
      WF (__insert_resource root new).2 ∧ (__insert_resource root new).2.res = root.res ∧
      (∀ key, Has (__insert_resource root new).2 key ↔ key = new.key ∨ Has root key) ∧
      Placed root new (__insert_resource root new).2) ∧
    ((__insert_resource root new).1 ≠ none → (__insert_resource root new).2 = root) ∧
    (new.res.Within root.res → ∃ fuel root' new',
      insert_resource_expand_to_fit fuel root new = some (root', new') ∧
      new'.id = new.id ∧ new.res.Within new'.res ∧
      (∀ m, Below root m → m.res.Nested new'.res) ∧
      (∀ i : Res, new.res.Within i → (∀ m, Below root m → m.res.Nested i) → new'.res.Within i) ∧
      WF root' ∧ (∀ key, Has root' key ↔ key = new'.key ∨ Has root key) ∧
      Placed root new' root') := by
  have hspec := __insert_resource_spec hroot hchild hnew
  generalize __insert_resource root new = result at hspec
  refine ⟨?_, ?_, ?_, ?_⟩
  · cases hspec with
    | outside hout => exact iff_of_false (by simp) fun h => hout h.1
    | blocked conflict _ h => exact iff_of_false (by simp) fun hall => h.2 (hall.2 conflict h.1)
    | done root' h => exact iff_of_true rfl ⟨h.within hroot, h.nested hroot hnew⟩
  · intro hnone
    cases hspec with
    | outside hout => cases hnone
    | blocked conflict _ h => cases hnone
    | done root' h => exact ⟨h.wf hroot hnew, h.res_eq, h.has, h.placed hroot hnew⟩
  · intro hsome
    cases hspec with
    | outside hout => rfl
    | blocked conflict _ h => rfl
    | done root' h => exact absurd rfl hsome
  intro hin
  obtain ⟨fuel, root', new', heq, hfits⟩ := expand_loop_spec hroot hids hchild hnew hin
  refine ⟨fuel, root', new', ?_, hfits.same, hfits.covers,
    hfits.inserted.nested hroot hfits.nonempty, hfits.least,
    hfits.inserted.wf hroot hfits.nonempty, hfits.inserted.has,
    hfits.inserted.placed hroot hfits.nonempty⟩
  unfold insert_resource_expand_to_fit
  rw [hparent]
  exact heq

/-- A resource with two children. -/
def threeRanges : Node :=
  .mk ⟨0, 0, 99, none⟩ [.mk ⟨1, 10, 19, some 0⟩ [], .mk ⟨2, 30, 39, some 0⟩ []]

theorem below_threeRanges {m : Node} (hm : Below threeRanges m) :
    m = .mk ⟨1, 10, 19, some 0⟩ [] ∨ m = .mk ⟨2, 30, 39, some 0⟩ [] := by
  rcases below_iff.mp hm with hc | ⟨c, hc, hmc⟩
  · simpa [threeRanges, Node.child] using hc
  -- The children have none.
  rcases below_iff.mp hmc with h | ⟨d, h, _⟩ <;> rcases mem_cons.mp hc with rfl | hc <;>
    simp_all [Node.child]

theorem wf_threeRanges : WF threeRanges := by
  refine .of_children ?_ ?_
  · constructor <;>
      simp [threeRanges, Node.child, Node.start, Node.end_, Node.id, Node.res, Res.Within]
  intro c hc
  rcases below_threeRanges (.child hc) with rfl | rfl <;> exact wf_leaf _

/-- A resource that contains one of the children and is apart from the other is inserted
above the first one. -/
theorem insert_resource_correct_threeRanges :
    (__insert_resource threeRanges (.mk ⟨3, 5, 25, none⟩ [])).1 = none ∧
      Placed threeRanges (.mk ⟨3, 5, 25, none⟩ [])
        (__insert_resource threeRanges (.mk ⟨3, 5, 25, none⟩ [])).2 := by
  have hspec := @insert_resource_correct threeRanges (.mk ⟨3, 5, 25, none⟩ []) wf_threeRanges
    (by
      intro m hm
      rcases below_threeRanges hm with rfl | rfl <;> decide)
    rfl rfl (by decide)
  have hnone := hspec.1.mpr ⟨⟨by decide, by decide⟩, by
    intro m hm
    rcases below_threeRanges hm with rfl | rfl
    · exact .inr (.inl ⟨by decide, by decide⟩)
    · exact .inl (.inr (by decide))⟩
  exact ⟨hnone, (hspec.2.1 hnone).2.2.2⟩

end Nubernel.Resource
