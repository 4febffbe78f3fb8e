import Nubernel.Resource.Expand

/-! # resource: reserving a region with splits

`reserve_region_with_split` requests the whole region and, where a child of the root is
in the way, the parts before and after it. The busy resources that it adds are what
the children leave of the region.
-/

set_option linter.style.nameCheck false

open List

namespace Nubernel.Resource

/-! ## Model -/

def IORESOURCE_BUSY : Nat := 0x80000000

/-- The tree, the name and flags of the resource at an address, and the number of calls of
`kzalloc` so far. -/
structure State where
  root : Node
  info : Nat → String × Nat
  calls : Nat

/-- The fields of a new resource. -/
def State.create (s : State) (res : Nat) (name : String) : State :=
  { s with info := Function.update s.info res (name, IORESOURCE_BUSY), calls := s.calls + 1 }

/-- The parts of the region before and after a conflict. Next to it no address wraps. -/
def split_around (reserve : State → Nat → Nat → Option State) (s : State) (start end_ : Nat)
    (conflict : Res) : Option State :=
  if conflict.start ≤ start ∧ conflict.end_ ≥ end_ then some s
  else
    (if conflict.start > start then reserve s start (conflict.start - 1) else some s).bind fun s =>
      if conflict.end_ < end_ then reserve s (conflict.end_ + 1) end_ else some s

section model
variable (kzalloc : Nat → Node → Nat) (name : String)

/-- `__reserve_region_with_split`, where `kzalloc` gives the address of a new resource. -/
def __reserve_region_with_split : Nat → State → Nat → Nat → Option State
  | 0, _, _, _ => none
  | fuel + 1, s, start, end_ =>
    let res := kzalloc s.calls s.root
    let created := s.create res name
    let split := split_around (__reserve_region_with_split fuel) created start end_
    match __request_resource s.root (.mk ⟨res, start, end_, none⟩ []) with
    | .linked root => some { created with root := root }
    | .root => split s.root.res
    | .conflict _ conflict _ => split conflict.res

def reserve_region_with_split (s : State) (start end_ : Nat) : Option State :=
  __reserve_region_with_split kzalloc name (end_ - start + 1) s start end_

/-- A new resource is at an address that no resource of the tree has. -/
def Fresh : Prop := ∀ i root m, m = root ∨ Below root m → m.id ≠ kzalloc i root

end model

/-! ## Reservations -/

/-- The address is in a child of the root. -/
def State.Taken (s : State) (x : Nat) : Prop := ∃ c ∈ s.root.child, c.Covers x

/-- What is there is kept, and busy children are added until the region is all taken. -/
structure Reserved (name : String) (s s' : State) (region : Nat → Prop) : Prop where
  wf : WF s'.root
  res : s'.root.res = s.root.res
  kept : s.root.child ⊆ s'.root.child
  info : ∀ m, m = s.root ∨ Below s.root m → s'.info m.id = s.info m.id
  added : ∀ c ∈ s'.root.child,
    c ∈ s.root.child ∨ c.child = [] ∧ s'.info c.id = (name, IORESOURCE_BUSY)
  taken : ∀ x, s'.Taken x ↔ s.Taken x ∨ region x

section reserved
variable {name : String} {s s' s'' : State} {p q : Nat → Prop}

theorem Reserved.trans (h : Reserved name s s' p) (h' : Reserved name s' s'' q) :
    Reserved name s s'' fun x => p x ∨ q x where
  wf := h'.wf
  res := h'.res.trans h.res
  kept := fun _ hc => h'.kept (h.kept hc)
  info := by
    intro m hm
    rw [← h.info m hm]
    rcases hm with rfl | hm
    · have hid : s'.root.id = s.root.id := congrArg Res.id h.res
      rw [← hid]
      exact h'.info s'.root (.inl rfl)
    apply h'.info m
    rcases below_iff.mp hm with hm | ⟨c, hc, hm⟩
    · exact .inr (.child (h.kept hm))
    · exact .inr (.deep (h.kept hc) hm)
  added := by
    intro c hc
    rcases h'.added c hc with hc | hnew
    · rcases h.added c hc with hold | ⟨hleaf, hinfo⟩
      · exact .inl hold
      · exact .inr ⟨hleaf, (h'.info c (.inr (.child hc))).trans hinfo⟩
    exact .inr hnew
  taken := by
    intro x
    rw [h'.taken, h.taken, or_assoc]

theorem Reserved.congr (h : Reserved name s s' p)
    (heq : ∀ x, s.Taken x ∨ p x ↔ s.Taken x ∨ q x) : Reserved name s s' q :=
  { h with taken := fun x => (h.taken x).trans (heq x) }

/-- Only fields of resources that are not in the tree are written. -/
theorem reserved_of_info {info : Nat → String × Nat} {calls : Nat} (hs : WF s.root)
    (hinfo : ∀ m, m = s.root ∨ Below s.root m → info m.id = s.info m.id) :
    Reserved name s ⟨s.root, info, calls⟩ fun _ => False :=
  ⟨hs, rfl, fun _ hc => hc, hinfo, fun _ hc => .inl hc, fun _ => .of_eq (or_false _).symm⟩

theorem reserved_linked {res start end_ : Nat} {pre post : List Node} (hs : WF s.root)
    (hle : start ≤ end_) (hin : s.root.res.start ≤ start ∧ end_ ≤ s.root.res.end_)
    (hinfo : s.info res = (name, IORESOURCE_BUSY)) (hall : s.root.child = pre ++ post)
    (hpre : ∀ c ∈ pre, c.end_ < start) (hpost : ∀ c ∈ post, end_ < c.start) :
    Reserved name s
      { s with root := s.root.setChild (pre ++ .mk ⟨res, start, end_, some s.root.id⟩ [] :: post) }
      fun x => start ≤ x ∧ x ≤ end_ := by
  generalize hnew : Node.mk ⟨res, start, end_, some s.root.id⟩ [] = new
  have hmem : ∀ c, c ∈ pre ++ new :: post ↔ c ∈ s.root.child ∨ c = new := by
    intro c
    rw [hall, mem_append, mem_append, mem_cons, or_left_comm, or_comm]
  subst hnew
  refine ⟨@WF.around _ pre [] post _ hs hall (wf_leaf _) hle hin rfl hpre hpost, rfl, ?_,
    fun _ _ => rfl, ?_, ?_⟩
  · intro c hc
    exact (hmem c).mpr (.inl hc)
  · intro c hc
    rcases (hmem c).mp hc with hold | rfl
    · exact .inl hold
    · exact .inr ⟨rfl, hinfo⟩
  intro x
  constructor
  · intro ⟨c, hc, hx⟩
    rcases (hmem c).mp hc with hold | rfl
    · exact .inl ⟨c, hold, hx⟩
    · exact .inr hx
  intro h
  rcases h with ⟨c, hc, hx⟩ | hx
  · exact ⟨c, (hmem c).mpr (.inl hc), hx⟩
  · exact ⟨_, (hmem _).mpr (.inr rfl), hx⟩

end reserved

/-! ## `__reserve_region_with_split` -/

section split
variable {name : String} {reserve : State → Nat → Nat → Option State} {s : State}
  {start end_ : Nat}

/-- The function reserves a region of up to so many addresses. -/
def Reserves (name : String) (reserve : State → Nat → Nat → Option State) (size : Nat) : Prop :=
  ∀ s start end_, WF s.root → start ≤ end_ →
    s.root.res.start ≤ start ∧ end_ ≤ s.root.res.end_ → end_ - start < size →
    ∃ s', reserve s start end_ = some s' ∧ Reserved name s s' fun x => start ≤ x ∧ x ≤ end_

/-- A part of the region, which may be empty. -/
theorem reserve_part {size a b : Nat} {cond : Prop} [Decidable cond]
    (h : Reserves name reserve size) (hs : WF s.root)
    (hpart : cond → a ≤ b ∧ (s.root.res.start ≤ a ∧ b ≤ s.root.res.end_) ∧ b - a < size) :
    ∃ s', (if cond then reserve s a b else some s) = some s' ∧
      Reserved name s s' fun x => cond ∧ a ≤ x ∧ x ≤ b := by
  by_cases hc : cond
  · rw [if_pos hc]
    obtain ⟨hle, hin, hsize⟩ := hpart hc
    obtain ⟨s', hs', hres⟩ := h s a b hs hle hin hsize
    exact ⟨s', hs', hres.congr fun x => by rw [and_iff_right hc]⟩
  rw [if_neg hc]
  exact ⟨s, rfl, (reserved_of_info hs fun _ _ => rfl).congr fun x => by rw [eq_false hc, false_and]⟩

theorem split_around_spec {conflict : Res} (h : Reserves name reserve (end_ - start))
    (hs : WF s.root) (hin : s.root.res.start ≤ start ∧ end_ ≤ s.root.res.end_)
    (hlo : conflict.start ≤ end_) (hhi : start ≤ conflict.end_)
    (htaken : ∀ x, conflict.start ≤ x → x ≤ conflict.end_ → s.Taken x) :
    ∃ s', split_around reserve s start end_ conflict = some s' ∧
      Reserved name s s' fun x => start ≤ x ∧ x ≤ end_ := by
  unfold split_around
  by_cases hall : conflict.start ≤ start ∧ conflict.end_ ≥ end_
  · rw [if_pos hall]
    refine ⟨s, rfl, (reserved_of_info hs fun _ _ => rfl).congr ?_⟩
    intro x
    have hx := htaken x
    grind
  rw [if_neg hall]
  obtain ⟨s₁, hs₁, hleft⟩ := @reserve_part _ _ s _ start (conflict.start - 1)
    (conflict.start > start) _ h hs (by omega)
  obtain ⟨s₂, hs₂, hright⟩ := @reserve_part _ _ s₁ _ (conflict.end_ + 1) end_
    (conflict.end_ < end_) _ h hleft.wf (by rw [hleft.res]; omega)
  refine ⟨s₂, ?_, (hleft.trans hright).congr ?_⟩
  · rw [hs₁]
    exact hs₂
  intro x
  grind

/-- **`__reserve_region_with_split`.** The induction is on the number of addresses left. -/
theorem __reserve_region_with_split_spec {kzalloc : Nat → Node → Nat} (hfresh : Fresh kzalloc)
    (fuel : Nat) : Reserves name (__reserve_region_with_split kzalloc name fuel) fuel := by
  induction fuel with
  | zero =>
    intro s start end_ _ _ _ hsize
    omega
  | succ fuel ih => ?_
  intro s start end_ hs hle hin hsize
  have hnew : Reserved name s (s.create (kzalloc s.calls s.root) name) fun _ => False :=
    reserved_of_info hs fun m hm => Function.update_of_ne (hfresh s.calls s.root m hm) _ _
  suffices hrun : ∃ s', __reserve_region_with_split kzalloc name (fuel + 1) s start end_ = some s' ∧
      Reserved name (s.create (kzalloc s.calls s.root) name) s' fun x => start ≤ x ∧ x ≤ end_ by
    obtain ⟨s', hs', h⟩ := hrun
    exact ⟨s', hs', (hnew.trans h).congr fun x => by rw [false_or]⟩
  rw [__reserve_region_with_split]
  rcases @__request_resource_spec s.root (.mk ⟨kzalloc s.calls s.root, start, end_, none⟩ [])
    hs.good hle with ⟨hout, _⟩ | ⟨_, hwalk⟩
  · exact absurd hin hout
  generalize __request_resource _ _ = r at hwalk ⊢
  cases hwalk with
  | linked pre post hall hpre hpost =>
    exact ⟨_, rfl, reserved_linked hs hle hin (Function.update_self _ _ _) hall hpre hpost⟩
  | conflict pre first post hall _ hlo hhi => ?_
  have hmem : first ∈ s.root.child := mem_iff_append.mpr ⟨_, _, hall⟩
  refine split_around_spec ?_ hs hin hlo hhi fun x hx hx' => ⟨first, hmem, hx, hx'⟩
  intro s a b hs hle hin hlt
  exact ih s a b hs hle hin (by omega)

end split

/-! ## The region -/

section region
variable {kzalloc : Nat → Node → Nat} {s : State} {start end_ : Nat}

/-- **Reserving a region**: it ends, all resources are as before, and the busy children
that are added are what the children leave of the region. -/
theorem reserve_region_with_split_correct (hfresh : Fresh kzalloc) (name : String)
    (hs : WF s.root) (hle : start ≤ end_) (hstart : s.root.start ≤ start)
    (hend : end_ ≤ s.root.end_) :
    ∃ s', reserve_region_with_split kzalloc name s start end_ = some s' ∧ WF s'.root ∧
      s'.root.res = s.root.res ∧ s.root.child ⊆ s'.root.child ∧
      (∀ m, m = s.root ∨ Below s.root m → s'.info m.id = s.info m.id) ∧
      (∀ c ∈ s'.root.child, c ∉ s.root.child →
        c.child = [] ∧ s'.info c.id = (name, IORESOURCE_BUSY)) ∧
      ∀ x, (∃ c ∈ s'.root.child, c ∉ s.root.child ∧ c.Covers x) ↔
        (start ≤ x ∧ x ≤ end_) ∧ ∀ c ∈ s.root.child, ¬c.Covers x := by
  obtain ⟨s', hs', h⟩ := @__reserve_region_with_split_spec name kzalloc hfresh _ s start end_
    hs hle ⟨hstart, hend⟩ (Nat.lt_succ_self _)
  refine ⟨s', hs', h.wf, h.res, h.kept, h.info, ?_, ?_⟩
  · intro c hc hnew
    exact (h.added c hc).resolve_left hnew
  intro x
  constructor
  · intro ⟨c, hc, hnew, hx⟩
    have hfree : ∀ d ∈ s.root.child, ¬d.Covers x := by
      intro d hd hdx
      apply hnew
      rw [h.wf.good.eq_of_covers hc (h.kept hd) hx hdx]
      exact hd
    refine ⟨?_, hfree⟩
    rcases (h.taken x).mp ⟨c, hc, hx⟩ with ⟨d, hd, hdx⟩ | hin
    · exact absurd hdx (hfree d hd)
    · exact hin
  intro ⟨hin, hfree⟩
  obtain ⟨c, hc, hx⟩ := (h.taken x).mpr (.inr hin)
  exact ⟨c, hc, fun hold => hfree c hold hx, hx⟩

/-- The region from 5 to 34 of a resource with two children. -/
theorem reserve_region_with_split_threeRanges :
    ∃ s', reserve_region_with_split (fun _ root => sizeOf root) "reserved"
        ⟨threeRanges, fun _ => ("", 0), 0⟩ 5 34 = some s' ∧
      ∀ x, (∃ c ∈ s'.root.child, c ∉ threeRanges.child ∧ c.Covers x) ↔
        (5 ≤ x ∧ x ≤ 34) ∧ ∀ c ∈ threeRanges.child, ¬c.Covers x := by
  have hid : ∀ m : Node, m.id < sizeOf m := by
    intro m
    cases m with
    | mk res child =>
      cases res
      simp [Node.id, Node.res]
      omega
  have hfresh : Fresh fun _ root => sizeOf root := by
    intro _ root m hm
    apply Nat.ne_of_lt
    rcases hm with rfl | hm
    · exact hid m
    · exact Nat.lt_trans (hid m) (sizeOf_lt_of_below hm)
  obtain ⟨s', hs', _, _, _, _, _, hunion⟩ := @reserve_region_with_split_correct _
    ⟨threeRanges, fun _ => ("", 0), 0⟩ 5 34 hfresh "reserved" wf_threeRanges (by decide) (by decide)
    (by decide)
  exact ⟨s', hs', hunion⟩

end region

end Nubernel.Resource
