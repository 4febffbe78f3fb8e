import Mathlib.Data.List.Basic
import Nubernel.Lib.Word

/-! # resource: walking over system RAM

`walk_system_ram_range` calls a function for the whole pages of each System RAM
resource in a range of pages. It gives up at a first resource without a whole page,
because the result is still the initial `-1` then, and the addresses of the last page
wrap.
-/

open List Option

namespace Nubernel.Resource

/-! ## Model -/

/-- A child of `iomem_resource`. -/
structure Iomem where
  start : Nat
  end_ : Nat
  flags : Nat
  name : String
  le : start ≤ end_

/-- `IORESOURCE_MEM | IORESOURCE_BUSY`. -/
def ramFlags : Nat := 0x80000200

abbrev Iomem.Ram (p : Iomem) : Prop := p.flags = ramFlags ∧ p.name = "System RAM"

/-- `find_next_system_ram` for System RAM: what the next resource has of the range. -/
def find_next_system_ram (start end_ : Nat) : List Iomem → Option (Nat × Nat)
  | [] => none
  | p :: l =>
    if ¬p.Ram then find_next_system_ram start end_ l
    else if p.start > end_ then none
    else if p.end_ ≥ start ∧ p.start < end_ then
      some (if start < p.start then p.start else start, if end_ > p.end_ then p.end_ else end_)
    else find_next_system_ram start end_ l

section model
variable (iomem : List Iomem) (func : Nat → Nat → Int)

/-- The loop of `walk_system_ram_range`: the result and the calls of `func`. -/
def walk_loop (orig_end : Nat) : Nat → Nat → Int → Option (Int × List (Nat × Nat))
  | 0, _, _ => none
  | fuel + 1, start, ret =>
    if start < orig_end then
      match find_next_system_ram start orig_end iomem with
      | none => some (ret, [])
      | some (start, end_) =>
        let pfn := add32 start (PAGE_SIZE - 1) / PAGE_SIZE
        let end_pfn := add32 end_ 1 / PAGE_SIZE
        let ret := if end_pfn > pfn then func pfn (end_pfn - pfn) else ret
        let calls := if end_pfn > pfn then [(pfn, end_pfn - pfn)] else []
        if ret ≠ 0 then some (ret, calls)
        else (walk_loop orig_end fuel (add32 end_ 1) ret).map fun r => (r.1, calls ++ r.2)
    else some (ret, [])

/-- `walk_system_ram_range`. The addresses are computed with 64 bits and kept with 32. -/
def walk_system_ram_range (fuel start_pfn nr_pages : Nat) : Option (Int × List (Nat × Nat)) :=
  walk_loop iomem func (sub64 (add32 start_pfn nr_pages * PAGE_SIZE) 1 % 2 ^ 32) fuel
    (start_pfn * PAGE_SIZE % 2 ^ 32) (-1)

end model

/-! ## The finder -/

/-- The resource is System RAM and meets the range. -/
def Iomem.meets (start end_ : Nat) (p : Iomem) : Bool :=
  decide (p.Ram ∧ start ≤ p.end_ ∧ p.start < end_)

/-- Sorted, disjoint ranges of addresses. -/
abbrev Sorted (l : List Iomem) : Prop := l.Pairwise fun a b => a.end_ < b.start

section finder
variable {start end_ : Nat} {l : List Iomem} {p : Iomem}

theorem find_next_system_ram_eq (h : Sorted l) : find_next_system_ram start end_ l =
    (l.find? (·.meets start end_)).map fun p => (max start p.start, min end_ p.end_) := by
  induction l with
  | nil => rfl
  | cons p l ih => ?_
  obtain ⟨hafter, htail⟩ := pairwise_cons.mp h
  rw [find_next_system_ram, find?_cons]
  by_cases hram : p.Ram
  · rw [if_neg (not_not.mpr hram)]
    by_cases hend : p.start > end_
    · -- The children behind are above the range, too.
      have hnone : l.find? (·.meets start end_) = none := by
        rw [find?_eq_none]
        intro q hq hmeets
        have hlt := hafter q hq
        have hle := p.le
        have hlo := (of_decide_eq_true hmeets).2.2
        omega
      rw [if_pos hend, show p.meets start end_ = false from decide_eq_false (by omega), hnone]
      rfl
    rw [if_neg hend]
    by_cases hmeets : p.end_ ≥ start ∧ p.start < end_
    · rw [if_pos hmeets, show p.meets start end_ = true from decide_eq_true ⟨hram, hmeets⟩]
      grind
    rw [if_neg hmeets, show p.meets start end_ = false from decide_eq_false (by tauto)]
    exact ih htail
  rw [if_pos hram, show p.meets start end_ = false from decide_eq_false (by tauto)]
  exact ih htail

end finder

/-! ## The walk -/

/-- The whole pages that the resource has of a range of addresses: the first one and their
number. -/
def Iomem.pages (start end_ : Nat) (p : Iomem) : Option (Nat × Nat) :=
  let pfn := (max start p.start + (PAGE_SIZE - 1)) / PAGE_SIZE
  let end_pfn := (min end_ p.end_ + 1) / PAGE_SIZE
  if p.Ram ∧ pfn < end_pfn then some (pfn, end_pfn - pfn) else none

/-- The pages as the source computes them, with words. -/
def Iomem.called (start end_ : Nat) (p : Iomem) : Option (Nat × Nat) :=
  let pfn := add32 (max start p.start) (PAGE_SIZE - 1) / PAGE_SIZE
  let end_pfn := add32 (min end_ p.end_) 1 / PAGE_SIZE
  if (start < end_ ∧ p.meets start end_ = true) ∧ pfn < end_pfn then some (pfn, end_pfn - pfn)
  else none

/-- The resource starts behind the first address of the last page of all. -/
abbrev Iomem.StartsLate (p : Iomem) : Prop := 2 ^ 32 - PAGE_SIZE < p.start

/-- The resource has the last address of all, and it is in the range. -/
abbrev Iomem.EndsLast (end_ : Nat) (p : Iomem) : Prop := min end_ p.end_ = 2 ^ 32 - 1

section walk
variable {cur end_ : Nat} {iomem pre post : List Iomem} {p : Iomem}

theorem called_of_not_meets (h : ¬p.meets cur end_ = true) : p.called cur end_ = none :=
  if_neg fun hcalled => h hcalled.1.2

theorem pages_of_not_meets (h : ¬p.meets cur end_ = true) : p.pages cur end_ = none := by
  refine if_neg ?_
  rintro ⟨hram, hlt⟩
  refine h (decide_eq_true ⟨hram, ?_⟩)
  unfold PAGE_SIZE at hlt
  omega

theorem called_of_endsLast (h : p.EndsLast end_) : p.called cur end_ = none := by
  refine if_neg ?_
  rw [show min end_ p.end_ = 2 ^ 32 - 1 from h]
  rintro ⟨_, hlt⟩
  exact absurd hlt (Nat.not_lt_zero _)

/-- The pages are right unless the resource starts late; then it has none, and is called. -/
theorem called_spec (hcur : cur ≤ 2 ^ 32 - PAGE_SIZE) (hlt : cur < end_) (hrange : end_ < 2 ^ 32)
    (hend : p.meets cur end_ = true → ¬p.EndsLast end_) :
    (p.called cur end_ = p.pages cur end_ ∨ p.pages cur end_ = none) ∧
      (p.called cur end_ = p.pages cur end_ ↔ (p.meets cur end_ = true → ¬p.StartsLate)) := by
  by_cases hmeets : p.meets cur end_ = true
  case neg =>
    rw [called_of_not_meets hmeets, pages_of_not_meets hmeets]
    exact ⟨.inl rfl, iff_of_true rfl fun h => absurd h hmeets⟩
  obtain ⟨hram, hlo, hhi⟩ := of_decide_eq_true hmeets
  have hend := hend hmeets
  have hle := p.le
  unfold Iomem.called Iomem.pages Iomem.StartsLate Iomem.EndsLast PAGE_SIZE at *
  dsimp only
  by_cases hlate : 2 ^ 32 - 4096 < p.start
  · -- The number of the first page wraps to 0.
    rw [if_pos ⟨⟨hlt, hmeets⟩, by unfold add32; omega⟩, if_neg (by omega)]
    exact ⟨.inr rfl, iff_of_false (some_ne_none _) fun h => h hmeets hlate⟩
  rw [add32_eq (by omega), add32_eq (by omega),
    if_congr (and_congr_left fun _ => iff_of_true ⟨hlt, hmeets⟩ hram) rfl rfl]
  exact ⟨.inl rfl, iff_of_true rfl fun _ => hlate⟩

/-- The calls from an address on are the call for the next resource, and those from its
end on. -/
theorem filterMap_called (hsorted : Sorted iomem) (hsplit : iomem = pre ++ p :: post)
    (hpre : ∀ q ∈ pre, ¬q.meets cur end_ = true) (hp : p.meets cur end_ = true)
    (hcur : cur < end_) : iomem.filterMap (·.called cur end_) =
      (p.called cur end_).toList ++ iomem.filterMap (·.called (min end_ p.end_ + 1) end_) := by
  obtain ⟨_, hlo, _⟩ := of_decide_eq_true hp
  subst hsplit
  have hnot : ∀ q ∈ pre, ¬q.meets (min end_ p.end_ + 1) end_ = true := by
    intro q hq hmeets
    obtain ⟨hram, hqlo, hqhi⟩ := of_decide_eq_true hmeets
    exact hpre q hq (decide_eq_true ⟨hram, by omega, hqhi⟩)
  have hdone : ∀ next, (∀ q ∈ pre, ¬q.meets next end_ = true) →
      pre.filterMap (·.called next end_) = [] :=
    fun next h => filterMap_eq_nil_iff.mpr fun q hq => called_of_not_meets (h q hq)
  have hpost : post.filterMap (·.called (min end_ p.end_ + 1) end_) =
      post.filterMap (·.called cur end_) := by
    apply filterMap_congr
    intro q hq
    have hlt := (pairwise_cons.mp (pairwise_append.mp hsorted).2.1).1 q hq
    have hle := q.le
    have hfirst : max (min end_ p.end_ + 1) q.start = max cur q.start := by omega
    have hmeets : (min end_ p.end_ + 1 < end_ ∧ q.meets (min end_ p.end_ + 1) end_ = true) ↔
        cur < end_ ∧ q.meets cur end_ = true := by
      simp only [Iomem.meets, decide_eq_true_iff]
      constructor <;> (rintro ⟨h1, h2, h3, h4⟩; exact ⟨by omega, h2, by omega, h4⟩)
    simp only [Iomem.called, hfirst, hmeets]
  have hp : p.called (min end_ p.end_ + 1) end_ = none := if_neg fun h => by
    have := (of_decide_eq_true h.1.2).2.1
    omega
  rw [filterMap_append, filterMap_append, hdone cur hpre, hdone _ hnot, filterMap_cons,
    filterMap_cons_none hp, hpost]
  cases p.called cur end_ with
  | none => rfl
  | some call => rfl

/-- One round: the next resource is called, or the result stays; with a result that is not 0
the walk ends. -/
theorem walk_loop_succ {fuel : Nat} {ret : Int} (hsorted : Sorted iomem)
    (hfound : iomem.find? (·.meets cur end_) = some p) (hcur : cur < end_) :
    walk_loop iomem (fun _ _ => 0) end_ (fuel + 1) cur ret =
      if p.called cur end_ = none ∧ ret ≠ 0 then some (ret, [])
      else (walk_loop iomem (fun _ _ => 0) end_ fuel (add32 (min end_ p.end_) 1) 0).map
        fun r => (r.1, (p.called cur end_).toList ++ r.2) := by
  have hmeets := find?_some hfound
  rw [walk_loop, if_pos hcur, find_next_system_ram_eq hsorted, hfound]
  dsimp only [map_some]
  by_cases hcall : add32 (max cur p.start) (PAGE_SIZE - 1) / PAGE_SIZE <
      add32 (min end_ p.end_) 1 / PAGE_SIZE
  · have hcalled : p.called cur end_ = some (_, _) := if_pos ⟨⟨hcur, hmeets⟩, hcall⟩
    rw [hcalled, if_pos hcall, if_pos hcall, if_neg (by simp), if_neg (by simp)]
    rfl
  have hcalled : p.called cur end_ = none := if_neg fun h => hcall h.2
  rw [hcalled, if_neg hcall, if_neg hcall]
  by_cases hret : ret = 0
  · rw [if_neg (not_not.mpr hret), if_neg fun h => h.2 hret, hret]
    rfl
  rw [if_pos hret, if_pos ⟨rfl, hret⟩]

/-- **The loop**, where the result is 0 unless the next resource is called. -/
theorem walk_loop_spec {fuel : Nat} {ret : Int} (hsorted : Sorted iomem) (hrange : end_ < 2 ^ 32)
    (hlast : ∀ p ∈ iomem, p.meets cur end_ = true → ¬p.EndsLast end_)
    (hret : ret = 0 ∨ ∀ p ∈ iomem.find? (·.meets cur end_), p.called cur end_ ≠ none)
    (hfuel : end_ + 1 - cur < fuel) :
    ∃ ret', walk_loop iomem (fun _ _ => 0) end_ fuel cur ret =
      some (ret', iomem.filterMap (·.called cur end_)) := by
  induction fuel generalizing cur ret with
  | zero => omega
  | succ fuel ih => ?_
  by_cases hnone : ¬∃ q ∈ iomem, cur < end_ ∧ q.meets cur end_ = true
  · have hnil : iomem.filterMap (·.called cur end_) = [] := by
      rw [filterMap_eq_nil_iff]
      exact fun q hq => if_neg fun h => hnone ⟨q, hq, h.1⟩
    rw [walk_loop, hnil, find_next_system_ram_eq hsorted]
    split
    · rename_i hcur
      rw [find?_eq_none.mpr fun q hq hmeets => hnone ⟨q, hq, hcur, hmeets⟩]
      exact ⟨ret, rfl⟩
    exact ⟨ret, rfl⟩
  obtain ⟨q, hq, hcur, hqmeets⟩ := not_not.mp hnone
  obtain ⟨p, hfound⟩ : ∃ p, iomem.find? (·.meets cur end_) = some p :=
    isSome_iff_exists.mp (find?_isSome.mpr ⟨q, hq, hqmeets⟩)
  obtain ⟨hp, pre, post, hsplit, hpre⟩ := find?_eq_some_iff_append.mp hfound
  have hpre : ∀ q ∈ pre, ¬q.meets cur end_ = true := by simpa using hpre
  have hin := hlast p (mem_of_find?_eq_some hfound) hp
  obtain ⟨hram, hlo, _⟩ := of_decide_eq_true hp
  obtain ⟨ret', hrun⟩ := @ih (min end_ p.end_ + 1) 0 (by
    intro q hq hmeets
    obtain ⟨hqram, hqlo, hqhi⟩ := of_decide_eq_true hmeets
    exact hlast q hq (decide_eq_true ⟨hqram, by omega, hqhi⟩)) (.inl rfl) (by omega)
  have hgo : ¬(p.called cur end_ = none ∧ ret ≠ 0) := by
    rintro ⟨hnone, hne⟩
    exact hret.resolve_left hne p hfound hnone
  rw [walk_loop_succ hsorted hfound hcur, if_neg hgo, add32_eq (by omega), hrun,
    filterMap_called hsorted hsplit hpre hp hcur]
  exact ⟨ret', rfl⟩

/-- With a resource that has the last address, there is always a next one. -/
theorem next_lt {q : Iomem} (hsorted : Sorted iomem)
    (hfound : iomem.find? (·.meets cur end_) = some p) (hq : q ∈ iomem)
    (hmeets : q.meets cur end_ = true) (hlast : q.EndsLast end_) (hrange : end_ < 2 ^ 32) :
    add32 (min end_ p.end_) 1 < end_ := by
  obtain ⟨_, _, hqhi⟩ := of_decide_eq_true hmeets
  obtain ⟨_, pre, post, rfl, hpre⟩ := find?_eq_some_iff_append.mp hfound
  rcases mem_append.mp hq with hq | hq
  · have := hpre q hq
    rw [hmeets] at this
    cases this
  rcases mem_cons.mp hq with rfl | hq
  · rw [hlast]
    exact Nat.lt_of_le_of_lt (Nat.zero_le _) hqhi
  -- A resource before the last one ends before it.
  have := (pairwise_cons.mp (pairwise_append.mp hsorted).2.1).1 q hq
  rw [add32_eq (by omega)]
  omega

/-- The address behind the last one is 0, and the walk begins again. -/
theorem walk_loop_forever (hsorted : Sorted iomem) (hp : p ∈ iomem) (hram : p.Ram)
    (hlast : p.EndsLast end_) (hrange : end_ < 2 ^ 32) (hstart : p.start < end_) (fuel : Nat)
    (hcur : cur < end_) : walk_loop iomem (fun _ _ => 0) end_ fuel cur 0 = none := by
  induction fuel generalizing cur with
  | zero => rfl
  | succ fuel ih => ?_
  have hmeets : p.meets cur end_ = true := decide_eq_true ⟨hram, by omega, hstart⟩
  obtain ⟨q, hfound⟩ : ∃ q, iomem.find? (·.meets cur end_) = some q :=
    isSome_iff_exists.mp (find?_isSome.mpr ⟨p, hp, hmeets⟩)
  rw [walk_loop_succ hsorted hfound hcur, if_neg fun h => h.2 rfl,
    ih (next_lt hsorted hfound hp hmeets hlast hrange), map_none]

/-- The page is one of the range, and all of it is in the System RAM resource. -/
abbrev Iomem.HasPage (first last : Nat) (p : Iomem) (k : Nat) : Prop :=
  p.Ram ∧ (first ≤ k ∧ k < last) ∧ p.start ≤ k * PAGE_SIZE ∧ (k + 1) * PAGE_SIZE ≤ p.end_ + 1

/-- The first resource in the range has a page there, and none starts or ends where addresses
wrap; or none has a page, and the first one is not called by mistake. -/
def Walkable (iomem : List Iomem) (start end_ : Nat) : Prop :=
  (∀ p ∈ iomem.find? (·.meets start end_), p.pages start end_ ≠ none) ∧
    (∀ p ∈ iomem, p.meets start end_ = true → ¬p.StartsLate ∧ ¬p.EndsLast end_) ∨
  iomem.filterMap (·.pages start end_) = [] ∧
    ∀ p ∈ iomem.find? (·.meets start end_), p.StartsLate → p.EndsLast end_

section lists
variable {α β : Type} {f g : α → Option β} {l : List α}

theorem length_filterMap_mono (h : ∀ x ∈ l, g x = f x ∨ f x = none) :
    (l.filterMap f).length ≤ (l.filterMap g).length := by
  induction l with
  | nil => exact Nat.le_refl _
  | cons x l ih => ?_
  have hrest := ih fun y hy => h y (mem_cons_of_mem _ hy)
  rw [filterMap_cons, filterMap_cons]
  rcases h x mem_cons_self with hx | hx <;> rw [hx] <;> grind

/-- Lists of calls, of which one has all those of the other. A call more would make the list
longer. -/
theorem filterMap_eq_iff (h : ∀ x ∈ l, g x = f x ∨ f x = none) :
    l.filterMap g = l.filterMap f ↔ ∀ x ∈ l, g x = f x := by
  refine ⟨fun heq => ?_, filterMap_congr⟩
  induction l with
  | nil => exact fun x hx => absurd hx not_mem_nil
  | cons x l ih => ?_
  have hrest : ∀ y ∈ l, g y = f y ∨ f y = none := fun y hy => h y (mem_cons_of_mem _ hy)
  have hlen := length_filterMap_mono hrest
  rw [filterMap_cons, filterMap_cons] at heq
  have hx : g x = f x := by
    rcases h x mem_cons_self with hx | hx
    · exact hx
    rw [hx] at heq ⊢
    cases hg : g x with
    | none => rfl
    | some y =>
      rw [hg] at heq
      have := congrArg length heq
      simp only [length_cons] at this
      omega
  rw [hx] at heq
  refine forall_mem_cons.mpr ⟨hx, ih hrest ?_⟩
  cases hf : f x with
  | none => rwa [hf] at heq
  | some y =>
    rw [hf] at heq
    exact (cons.inj heq).2

end lists

/-- The calls of a whole walk are right if and only if the range is walkable. -/
theorem walk_loop_right {start fuel : Nat} (hsorted : Sorted iomem)
    (hstart : start ≤ 2 ^ 32 - PAGE_SIZE) (hlt : start < end_) (hrange : end_ < 2 ^ 32)
    (hfuel : end_ + 1 - start < fuel) :
    (∃ ret, walk_loop iomem (fun _ _ => 0) end_ fuel start (-1) =
      some (ret, iomem.filterMap (·.pages start end_))) ↔ Walkable iomem start end_ := by
  obtain ⟨fuel, rfl⟩ := Nat.exists_eq_succ_of_ne_zero (show fuel ≠ 0 by omega)
  cases hfound : iomem.find? (·.meets start end_) with
  | none =>
    have hnil : iomem.filterMap (·.pages start end_) = [] :=
      filterMap_eq_nil_iff.mpr fun q hq => pages_of_not_meets (find?_eq_none.mp hfound q hq)
    refine iff_of_true ⟨-1, ?_⟩ (.inr ⟨hnil, by simp [hfound]⟩)
    rw [walk_loop, if_pos hlt, find_next_system_ram_eq hsorted, hfound, hnil]
    rfl
  | some p => ?_
  have hp := mem_of_find?_eq_some hfound
  have hmeets := find?_some hfound
  obtain ⟨hram, _, hphi⟩ := of_decide_eq_true hmeets
  unfold Walkable
  simp only [hfound, mem_def, some.injEq, forall_eq']
  by_cases hcalled : p.called start end_ = none
  · -- The walk ends at the first resource.
    rw [walk_loop_succ hsorted hfound hlt, if_pos ⟨hcalled, by decide⟩]
    have hbad : ¬(p.pages start end_ ≠ none ∧
        ∀ q ∈ iomem, q.meets start end_ = true → ¬q.StartsLate ∧ ¬q.EndsLast end_) := by
      rintro ⟨hpages, hall⟩
      obtain ⟨hlate, hend⟩ := hall p hp hmeets
      have hright := (called_spec hstart hlt hrange fun _ => hend).2.mpr fun _ => hlate
      exact hpages (hright ▸ hcalled)
    rw [or_iff_right hbad, and_iff_left (fun hlate => ?_)]
    · constructor
      · rintro ⟨ret, heq⟩
        exact (Prod.mk.inj (some.inj heq)).2.symm
      intro hnil
      exact ⟨-1, by rw [hnil]⟩
    by_contra hend
    obtain ⟨hor, hiff⟩ := called_spec hstart hlt hrange fun _ => hend
    have hne := fun h => hiff.mp h hmeets hlate
    exact hne (hcalled.trans (hor.resolve_left hne).symm)
  have hend : ¬p.EndsLast end_ := fun h => hcalled (called_of_endsLast h)
  -- A resource that is called has a page, or is called by mistake.
  have hsecond : ¬(iomem.filterMap (·.pages start end_) = [] ∧
      (p.StartsLate → p.EndsLast end_)) := by
    rintro ⟨hnil, hlate⟩
    have hright := (called_spec hstart hlt hrange fun _ => hend).2.mpr fun _ h => hend (hlate h)
    exact hcalled (hright.trans (filterMap_eq_nil_iff.mp hnil p hp))
  rw [or_iff_left hsecond]
  by_cases hforever : ∃ q ∈ iomem, q.meets start end_ = true ∧ q.EndsLast end_
  · obtain ⟨q, hq, hqmeets, hqend⟩ := hforever
    obtain ⟨hqram, _, hqhi⟩ := of_decide_eq_true hqmeets
    refine iff_of_false ?_ fun h => (h.2 q hq hqmeets).2 hqend
    rintro ⟨ret, heq⟩
    rw [walk_loop_succ hsorted hfound hlt, if_neg fun h => hcalled h.1,
      walk_loop_forever hsorted hq hqram hqend hrange hqhi, map_none] at heq
    · cases heq
    exact next_lt hsorted hfound hq hqmeets hqend hrange
  have hlast : ∀ q ∈ iomem, q.meets start end_ = true → ¬q.EndsLast end_ :=
    fun q hq hqmeets hqend => hforever ⟨q, hq, hqmeets, hqend⟩
  obtain ⟨ret, hrun⟩ := @walk_loop_spec start end_ iomem (fuel + 1) (-1) hsorted hrange hlast
    (.inr fun q hq => by cases hfound.symm.trans hq; exact hcalled) hfuel
  have hspec := fun q hq => called_spec hstart hlt hrange (hlast q hq)
  calc (∃ ret, walk_loop iomem (fun _ _ => 0) end_ (fuel + 1) start (-1) =
        some (ret, iomem.filterMap (·.pages start end_)))
      ↔ iomem.filterMap (·.called start end_) = iomem.filterMap (·.pages start end_) := by
        rw [hrun]
        exact ⟨fun ⟨_, h⟩ => (Prod.mk.inj (some.inj h)).2, fun h => ⟨ret, by rw [h]⟩⟩
    _ ↔ ∀ q ∈ iomem, q.called start end_ = q.pages start end_ :=
        filterMap_eq_iff fun q hq => (hspec q hq).1
    _ ↔ ∀ q ∈ iomem, q.meets start end_ = true → ¬q.StartsLate :=
        forall₂_congr fun q hq => (hspec q hq).2
    _ ↔ _ := by
      constructor
      · intro hall
        refine ⟨?_, fun q hq hqmeets => ⟨hall q hq hqmeets, hlast q hq hqmeets⟩⟩
        exact (hspec p hp).2.mpr (hall p hp) ▸ hcalled
      exact fun h q hq hqmeets => (h.2 q hq hqmeets).1

/-- **`walk_system_ram_range`** ends and calls the function once for the pages of each
System RAM resource, in ascending order, if and only if the range is walkable. -/
theorem walk_system_ram_range_calls {start_pfn nr_pages fuel start : Nat} (hsorted : Sorted iomem)
    (hnr : 1 ≤ nr_pages) (hstart : start = start_pfn * PAGE_SIZE)
    (hend : end_ + 1 = (start_pfn + nr_pages) * PAGE_SIZE) (hrange : end_ < 2 ^ 32)
    (hfuel : nr_pages * PAGE_SIZE < fuel) :
    ((∃ ret, walk_system_ram_range iomem (fun _ _ => 0) fuel start_pfn nr_pages =
      some (ret, iomem.filterMap (·.pages start end_))) ↔ Walkable iomem start end_) ∧
    ∀ (p : Iomem) k, (∃ call ∈ p.pages start end_, call.1 ≤ k ∧ k < call.1 + call.2) ↔
      p.HasPage start_pfn (start_pfn + nr_pages) k := by
  unfold PAGE_SIZE at hstart hend hfuel
  constructor
  · have hend' : sub64 (add32 start_pfn nr_pages * PAGE_SIZE) 1 % 2 ^ 32 = end_ := by
      unfold sub64 add32 PAGE_SIZE
      omega
    have hstart' : start_pfn * PAGE_SIZE % 2 ^ 32 = start := by
      unfold PAGE_SIZE
      omega
    rw [walk_system_ram_range, hend', hstart']
    exact walk_loop_right hsorted (by unfold PAGE_SIZE; omega) (by omega) hrange (by omega)
  intro p k
  unfold Iomem.pages Iomem.HasPage PAGE_SIZE
  dsimp only
  split
  · rename_i hpages
    simp only [mem_def, some.injEq, exists_eq_left']
    rw [and_iff_right hpages.1]
    omega
  rename_i hnone
  simp only [mem_def, reduceCtorEq, false_and, exists_false, false_iff]
  rintro ⟨hram, hk⟩
  exact hnone ⟨hram, by omega⟩

/-- Two resources of which the first one ends in the first page. -/
def twoRams : List Iomem :=
  [⟨0, 0x17ff, ramFlags, "System RAM", by decide⟩,
    ⟨0x1800, 0x3fff, ramFlags, "System RAM", by decide⟩]

def lastRam : Iomem := ⟨0xffff0000, 0xffffffff, ramFlags, "System RAM", by decide⟩

/-- Each of the two resources has pages in the range. -/
theorem walk_system_ram_range_calls_twoRams :
    ∃ ret, walk_system_ram_range twoRams (fun _ _ => 0) 20000 0 4 =
      some (ret, [(0, 1), (2, 2)]) :=
  (@walk_system_ram_range_calls 0x3fff twoRams 0 4 20000 0 (by decide) (by decide) rfl rfl
    (by decide) (by decide)).1.mpr (.inl (by decide))

/-- From page 1 on the first resource has none, and the second one is not called; a
resource with the last page is lost, too. -/
theorem walk_system_ram_range_loses_pages :
    Sorted twoRams ∧ walk_system_ram_range twoRams (fun _ _ => 0) 20000 1 3 = some (-1, []) ∧
      twoRams.filterMap (·.pages 0x1000 0x3fff) = [(2, 2)] ∧
    walk_system_ram_range [lastRam] (fun _ _ => 0) (2 ^ 32) 0 (2 ^ 20) = some (-1, []) ∧
      lastRam.pages 0 0xffffffff = some (0xffff0, 16) := by
  decide +kernel

end walk

end Nubernel.Resource
