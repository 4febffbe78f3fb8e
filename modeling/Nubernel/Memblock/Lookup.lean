import Nubernel.Memblock.Table

/-! # memblock: looking up a range, and removals that fail

Model of `memblock_find`, which cuts a request to its part in the lowest
region of memory that it meets.
-/

open Nat Option

namespace Nubernel.Memblock

/-! ## Removals that fail -/

section remove
variable {rgn rgn' : Region} {base size i : Nat}

/-- What has been joined is not refused. -/
theorem add_scanned_joined {coalesced : Nat} (hpos : 0 < coalesced) :
    add_scanned rgn base size i coalesced ≠ some (-1, rgn') := by
  intro h
  unfold add_scanned at h
  by_cases hadj : i < rgn.last ∧ memblock_regions_adjacent rgn i (i + 1) ≠ 0
  · rw [if_pos hadj] at h
    cases hc : memblock_coalesce_regions rgn i (i + 1) with
    | none =>
      rw [hc] at h
      cases h
    | some rgn₁ =>
      simp only [hc, map_some, bind_eq_bind, bind_some] at h
      rw [if_pos (succ_ne_zero _), some.injEq, Prod.mk.injEq] at h
      omega
  simp only [if_neg hadj, bind_eq_bind, bind_some] at h
  rw [if_pos (by omega), some.injEq, Prod.mk.injEq] at h
  omega

theorem add_scanned_cnt (hpos : 0 < rgn.cnt) : add_scanned rgn base size rgn.cnt 0 =
    if rgn.cnt ≥ MAX_MEMBLOCK_REGIONS then some (-1, rgn)
    else some (0, insert_sorted rgn base size) := by
  have hlast : ¬rgn.cnt < rgn.last := by
    unfold Region.last sub32
    omega
  unfold add_scanned
  simp only [hlast, false_and, if_false, bind_eq_bind, bind_some, ne_eq, not_true]

/-- The region is not in the table and touches none in it. -/
def NoNeighbour (rgn : Region) (base size : Nat) : Prop :=
  ∀ j < rgn.cnt, rgn.region j ≠ ⟨base, size⟩ ∧
    memblock_addrs_adjacent base size (rgn.region j).base (rgn.region j).size = 0

theorem scan_apart (fuel k : Nat) : scan rgn base size fuel k = .apart ↔
    ∀ j, k ≤ j → j < k + fuel → rgn.region j ≠ ⟨base, size⟩ ∧
      memblock_addrs_adjacent base size (rgn.region j).base (rgn.region j).size = 0 := by
  induction fuel generalizing k with
  | zero => exact iff_of_true rfl fun j _ _ => by omega
  | succ fuel ih => ?_
  -- The first slot, and those behind it.
  have hsplit : scan rgn base size (fuel + 1) k = .apart ↔
      (rgn.region k ≠ ⟨base, size⟩ ∧
        memblock_addrs_adjacent base size (rgn.region k).base (rgn.region k).size = 0) ∧
      scan rgn base size fuel (k + 1) = .apart := by
    simp only [scan]
    rw [ne_eq, show rgn.region k = ⟨base, size⟩ ↔ (rgn.region k).base = base ∧
      (rgn.region k).size = size from Property.ext_iff]
    split_ifs with hknown hup hdown
    · exact iff_of_false nofun fun h => h.1.1 hknown
    · exact iff_of_false nofun fun h => by omega
    · exact iff_of_false nofun fun h => by omega
    exact ⟨fun h => ⟨⟨hknown, by omega⟩, h⟩, fun h => h.2⟩
  rw [hsplit, ih]
  constructor
  · rintro ⟨hk, hrest⟩ j hkj hj
    rcases Nat.eq_or_lt_of_le hkj with rfl | hlt
    · exact hk
    exact hrest j hlt (by omega)
  intro h
  exact ⟨h k (Nat.le_refl k) (by omega), fun j hkj hj => h j (by omega) (by omega)⟩

/-- A region is refused if and only if the table is full and it has no neighbour there. -/
theorem add_region_refused (hpos : 0 < rgn.cnt) :
    memblock_add_region rgn base size = some (-1, rgn') ↔
      MAX_MEMBLOCK_REGIONS ≤ rgn.cnt ∧ NoNeighbour rgn base size ∧ rgn' = rgn := by
  have hscan : scan rgn base size rgn.cnt 0 = .apart ↔ NoNeighbour rgn base size := by
    rw [scan_apart]
    exact ⟨fun h j hj => h j (Nat.zero_le _) (by omega), fun h j _ hj => h j (by omega)⟩
  unfold memblock_add_region
  split
  · rename_i hfirst
    refine iff_of_false (fun h => by cases h) fun h => ?_
    have : MAX_MEMBLOCK_REGIONS ≤ 1 := hfirst.1 ▸ h.1
    exact absurd this (by decide)
  split
  · rename_i hs
    exact iff_of_false (fun h => by cases h) fun h => by cases (hscan.mpr h.2.1).symm.trans hs
  · rename_i hs
    exact iff_of_false (add_scanned_joined Nat.one_pos) fun h => by
      cases (hscan.mpr h.2.1).symm.trans hs
  rename_i hs
  rw [add_scanned_cnt hpos]
  split
  · rename_i hfull
    rw [some.injEq, Prod.mk.injEq]
    exact ⟨fun h => ⟨hfull, hscan.mp hs, h.2.symm⟩, fun h => ⟨rfl, h.2.2.symm⟩⟩
  rename_i hroom
  exact iff_of_false (fun h => by cases h) fun h => hroom h.1

/-- The range up to `stop` is in the region. -/
def Contains (p : Property) (base stop : Nat) : Prop :=
  p.base ≤ base ∧ stop ≤ add64 p.base p.size

theorem find_region_some {stop fuel k : Nat} : find_region rgn base stop fuel k = some i ↔
    (k ≤ i ∧ i < k + fuel) ∧ Contains (rgn.region i) base stop ∧
      ∀ j, k ≤ j → j < i → ¬Contains (rgn.region j) base stop := by
  induction fuel generalizing k with
  | zero => exact iff_of_false nofun fun h => by omega
  | succ fuel ih => ?_
  simp only [find_region]
  split
  · rename_i hin
    rw [some.injEq]
    constructor
    · rintro rfl
      exact ⟨⟨Nat.le_refl _, by omega⟩, hin, fun j hkj hj => by omega⟩
    rintro ⟨hle, _, hfirst⟩
    by_contra hne
    exact hfirst k (Nat.le_refl k) (by omega) hin
  rename_i hout
  rw [ih]
  constructor
  · rintro ⟨hle, hin, hfirst⟩
    refine ⟨by omega, hin, fun j hkj hj => ?_⟩
    rcases Nat.eq_or_lt_of_le hkj with rfl | hlt
    · exact hout
    exact hfirst j hlt hj
  rintro ⟨hle, hin, hfirst⟩
  have hne : k ≠ i := fun h => hout (h ▸ hin)
  exact ⟨by omega, hin, fun j hkj hj => hfirst j (by omega) hj⟩

end remove

/-- Region `i` is cut at the beginning of a hole. -/
def cut (rgn : Region) (i base : Nat) : Region :=
  ⟨rgn.cnt, setRegion rgn.region i ⟨(rgn.region i).base, sub64 base (rgn.region i).base⟩⟩

theorem cut_self (rgn : Region) (i base : Nat) :
    (cut rgn i base).region i = ⟨(rgn.region i).base, sub64 base (rgn.region i).base⟩ :=
  setRegion_self _ _ _

/-- The range is strictly inside region `i`, the first one that contains it, and this region
changes when it is cut, while the part behind the hole cannot be added. -/
structure CutsOnly (rgn : Region) (base size i : Nat) : Prop where
  lt : i < rgn.cnt
  inside : Contains (rgn.region i) base (add64 base size)
  first : ∀ j < i, ¬Contains (rgn.region j) base (add64 base size)
  front : (rgn.region i).base ≠ base
  back : add64 (rgn.region i).base (rgn.region i).size ≠ add64 base size
  changes : sub64 base (rgn.region i).base ≠ (rgn.region i).size
  full : MAX_MEMBLOCK_REGIONS ≤ rgn.cnt
  alone : NoNeighbour (cut rgn i base) (add64 base size)
    (sub64 (add64 (rgn.region i).base (rgn.region i).size) (add64 base size))

/-- **Main theorem.** If `__memblock_remove` returns an error, then the table
is as it was, if and only if the range is not strictly inside a region of a full table
with a rest that has no neighbour. -/
theorem failed_remove_keeps_table (rgn : Region) (base size : Nat) :
    (∀ rgn', memblock_remove rgn base size = some (-1, rgn') →
      rgn'.cnt = rgn.cnt ∧ ∀ j < rgn.cnt, rgn'.region j = rgn.region j) ↔
      ¬∃ i, CutsOnly rgn base size i := by
  constructor
  · rintro h ⟨i, hcuts⟩
    have hi := hcuts.lt
    have hfind : find_region rgn base (add64 base size) rgn.cnt 0 = some i :=
      find_region_some.mpr ⟨by omega, hcuts.inside, fun j _ => hcuts.first j⟩
    have hrefused : memblock_remove rgn base size = some (-1, cut rgn i base) := by
      unfold memblock_remove
      simp only [hfind]
      rw [if_neg fun h => hcuts.front h.1, if_neg hcuts.front, if_neg hcuts.back]
      exact (@add_region_refused (cut rgn i base) _ _ _ (Nat.zero_lt_of_lt hi)).mpr
        ⟨hcuts.full, hcuts.alone, rfl⟩
    have hsame := (h _ hrefused).2 i hi
    rw [cut_self] at hsame
    exact hcuts.changes (congrArg Property.size hsame)
  intro hnot rgn' h
  unfold memblock_remove at h
  simp only at h
  split at h
  · cases h
    exact ⟨rfl, fun _ _ => rfl⟩
  rename_i i hfind
  obtain ⟨hlt, hin, hfirst⟩ := find_region_some.mp hfind
  have hi : i < rgn.cnt := by omega
  split_ifs at h with hall hfront hback
  · cases hr : memblock_remove_region rgn i with
    | none =>
      rw [hr] at h
      cases h
    | some rgn₁ =>
      rw [hr] at h
      cases h
  · cases h
  · cases h
  -- The region is split, and the part behind the hole is refused.
  obtain ⟨hfull, halone, rfl⟩ :=
    (@add_region_refused (cut rgn i base) _ _ _ (Nat.zero_lt_of_lt hi)).mp h
  have hsize : sub64 base (rgn.region i).base = (rgn.region i).size := by
    by_contra hne
    exact hnot ⟨i, hi, hin, fun j => hfirst j (Nat.zero_le j), hfront, hback, hne, hfull, halone⟩
  refine ⟨rfl, fun j _ => ?_⟩
  by_cases hji : j = i
  · rw [hji, cut_self, hsize]
  exact setRegion_ne _ _ hji

/-- A table with one region. -/
def one_region : Region := ⟨1, fun _ => ⟨4096, 4096⟩⟩

/-- A full table: the region is cut at the hole, and what is behind the hole is
lost. -/
theorem failed_remove_cuts_region :
    let rgn : Region := ⟨MAX_MEMBLOCK_REGIONS, fun i => ⟨4096 * i, 2048⟩⟩
    (memblock_remove rgn 1024 512).map (fun r => (r.1, r.2.cnt, r.2.region 0)) =
      some (-1, MAX_MEMBLOCK_REGIONS, ⟨0, 1024⟩) := by
  decide +kernel

/-! ## Looking up a range -/

/-- The loop of `memblock_find`, from slot `i` on. -/
def find_loop (memory : Region) (rstart rend : Nat) : Nat → Nat → Option Property
  | 0, _ => none
  | fuel + 1, i =>
    let start := (memory.region i).base
    let stop := sub64 (add64 start (memory.region i).size) 1
    if start > rend then
      none
    else if stop ≥ rstart ∧ start < rend then
      let rstart := if rstart < start then start else rstart
      let rend := if rend > stop then stop else rend
      some ⟨rstart, add64 (sub64 rend rstart) 1⟩
    else
      find_loop memory rstart rend fuel (i + 1)

/-- The result, and the request as it is left. -/
def report (res : Property) : Option Property → Int × Property
  | some res' => (0, res')
  | none => (-1, res)

def memblock_find (memory : Region) (res : Property) : Int × Property :=
  report res (find_loop memory res.base (sub64 (add64 res.base res.size) 1) memory.cnt 0)

/-- The regions do not wrap around, and are disjoint and sorted. They may be empty. -/
structure Ascending (rgn : Region) : Prop where
  proper : ∀ i < rgn.cnt, (rgn.region i).base < 2 ^ 64 ∧
    (rgn.region i).base + (rgn.region i).size ≤ 2 ^ 64
  disjoint : ∀ i j, i < j → j < rgn.cnt →
    (rgn.region i).base + (rgn.region i).size ≤ (rgn.region j).base

/-- Two ranges have an address in common. -/
def Meets (p q : Property) : Prop := ∃ a, p.Has a ∧ q.Has a

theorem meets_iff {p q : Property} (hp : 0 < p.size) :
    Meets p q ↔ 0 < q.size ∧ p.base < q.base + q.size ∧ q.base < p.base + p.size := by
  constructor
  · rintro ⟨a, ha, ha'⟩
    unfold Property.Has at ha ha'
    omega
  intro h
  refine ⟨max p.base q.base, ?_, ?_⟩ <;> unfold Property.Has <;> omega

/-- The last address, as the source computes it. -/
theorem last_address {p : Property} (hsize : 0 < p.size) (hwrap : p.base + p.size ≤ 2 ^ 64) :
    sub64 (add64 p.base p.size) 1 = p.base + p.size - 1 := by
  unfold sub64 add64
  omega

/-- The request is cut to the addresses that it has in common with the lowest
region that it meets, or it meets none and is left alone. -/
def Found (memory : Region) (res : Property) (r : Int × Property) : Prop :=
  (∃ i < memory.cnt, (∀ j < i, ¬Meets res (memory.region j)) ∧ Meets res (memory.region i) ∧
    r.1 = 0 ∧ ∀ a, r.2.Has a ↔ res.Has a ∧ (memory.region i).Has a) ∨
  (∀ i < memory.cnt, ¬Meets res (memory.region i)) ∧ r = (-1, res)

/-- A region that the loop gets wrong: an empty one strictly inside the request, which it
takes, and one that begins with the last byte of the request, which it passes over. -/
def Misread (res p : Property) : Prop :=
  p.size = 0 ∧ res.base < p.base ∧ p.base + 1 < res.base + res.size ∨
    0 < p.size ∧ p.base + 1 = res.base + res.size

/-- The table begins with the region of `memblock_init`, and the loop takes it for all of
memory. -/
def StartsEmpty (memory : Region) (res : Property) : Prop :=
  0 < memory.cnt ∧ memory.region 0 = ⟨0, 0⟩ ∧ 1 < res.base + res.size

instance (memory : Region) (res : Property) : Decidable (StartsEmpty memory res) :=
  inferInstanceAs (Decidable (_ ∧ _))

section find
variable {memory : Region} {res : Property} (h : Ascending memory) (hsize : 0 < res.size)
  (hword : res.size < 2 ^ 64) (hwrap : res.base + res.size ≤ 2 ^ 64)

/-- A result without an address is not right. -/
theorem not_found_empty (base : Nat) : ¬Found memory res (0, ⟨base, 0⟩) := by
  rintro (⟨k, _, _, ⟨a, ha⟩, _, hsame⟩ | ⟨_, hres⟩)
  · obtain ⟨hle, hlt⟩ := (hsame a).mpr ha
    exact absurd hlt (Nat.not_lt.mpr hle)
  · cases hres

include h

/-- An empty region at 0 is the first one, or like it. -/
theorem region_zero_of_empty {i : Nat} (hi : i < memory.cnt) (hregion : memory.region i = ⟨0, 0⟩) :
    memory.region 0 = ⟨0, 0⟩ := by
  rcases Nat.eq_zero_or_pos i with rfl | hpos
  · exact hregion
  have hle := h.disjoint 0 i hpos hi
  rw [hregion] at hle
  obtain ⟨hbase, hempty⟩ := Nat.add_eq_zero_iff.mp (Nat.le_zero.mp hle)
  exact Property.ext hbase hempty

include hsize

theorem not_meets_behind {i j : Nat} (hij : i ≤ j) (hj : j < memory.cnt)
    (hbehind : (memory.region i).base > res.base + res.size - 1) :
    (memory.region j).base > res.base + res.size - 1 ∧ ¬Meets res (memory.region j) := by
  have hlate : (memory.region j).base > res.base + res.size - 1 := by
    rcases Nat.lt_or_eq_of_le hij with hlt | rfl
    · have := h.disjoint i j hlt hj
      omega
    exact hbehind
  refine ⟨hlate, ?_⟩
  rw [meets_iff hsize]
  omega

/-- Behind a region that begins with the last byte of the request, nothing is found. -/
theorem find_loop_behind {fuel i : Nat} (hfuel : i + 1 + fuel = memory.cnt)
    (hpos : 0 < (memory.region i).size)
    (hlast : (memory.region i).base + 1 = res.base + res.size) :
    find_loop memory res.base (res.base + res.size - 1) fuel (i + 1) = none := by
  cases fuel with
  | zero => rfl
  | succ fuel =>
    have := h.disjoint i (i + 1) (Nat.lt_succ_self i) (by omega)
    rw [find_loop]
    simp only
    rw [if_pos (by omega)]

include hword hwrap

/-- None of the regions before slot `i` meets the request. -/
theorem find_loop_spec (hstart : ¬StartsEmpty memory res) {fuel i : Nat}
    (hfuel : i + fuel = memory.cnt) (hbefore : ∀ j < i, ¬Meets res (memory.region j)) :
    Found memory res (report res
        (find_loop memory res.base (res.base + res.size - 1) fuel i)) ↔
      ∀ k, i ≤ k → k < memory.cnt → (∀ j < k, ¬Meets res (memory.region j)) →
        ¬Misread res (memory.region k) := by
  induction fuel generalizing i with
  | zero =>
    exact iff_of_true (.inr ⟨fun j hj => hbefore j (by omega), rfl⟩) fun k _ _ => by omega
  | succ fuel ih => ?_
  have hi : i < memory.cnt := by omega
  obtain ⟨hbase, hend⟩ := h.proper i hi
  have hzero : (memory.region i).size = 0 → (memory.region i).base = 0 →
      res.base + res.size ≤ 1 := by
    intro hz hb
    by_contra hmore
    have hfirst := region_zero_of_empty h hi (Property.ext hb hz)
    exact hstart ⟨by omega, hfirst, by omega⟩
  have hmeets := meets_iff (q := memory.region i) hsize
  have hnext : ¬Misread res (memory.region i) →
      ((∀ k, i + 1 ≤ k → k < memory.cnt → (∀ j < k, ¬Meets res (memory.region j)) →
        ¬Misread res (memory.region k)) ↔
      ∀ k, i ≤ k → k < memory.cnt → (∀ j < k, ¬Meets res (memory.region j)) →
        ¬Misread res (memory.region k)) := by
    refine fun hnot => ⟨fun hall k hik => ?_, fun hall k hik => hall k (by omega)⟩
    rcases Nat.eq_or_lt_of_le hik with rfl | hlt
    · exact fun _ _ => hnot
    exact hall k hlt
  simp only [find_loop]
  by_cases hbehind : (memory.region i).base > res.base + res.size - 1
  · rw [if_pos hbehind]
    -- All the regions from here on are behind the request.
    refine iff_of_true (.inr ⟨fun j hj => ?_, rfl⟩) fun k hik hk _ => ?_
    · by_cases hji : j < i
      · exact hbefore j hji
      exact (not_meets_behind h hsize (by omega) hj hbehind).2
    have := (not_meets_behind h hsize hik hk hbehind).1
    unfold Misread
    omega
  rw [if_neg hbehind]
  by_cases hempty : (memory.region i).size = 0
  · have hstop : sub64 (add64 (memory.region i).base (memory.region i).size) 1 ≥ res.base ∧
        (memory.region i).base < res.base + res.size - 1 ↔ Misread res (memory.region i) := by
      unfold sub64 add64 Misread
      omega
    by_cases hmis : Misread res (memory.region i)
    · rw [if_pos (hstop.mpr hmis)]
      refine iff_of_false ?_ fun hall => hall i (Nat.le_refl i) hi hbefore hmis
      -- What is found has no address.
      have hlow : res.base < (memory.region i).base := by
        unfold Misread at hmis
        omega
      have hnone : add64 (sub64 (sub64 (add64 (memory.region i).base (memory.region i).size) 1)
          (memory.region i).base) 1 = 0 := by
        unfold sub64 add64
        omega
      have hcut : res.base + res.size - 1 >
          sub64 (add64 (memory.region i).base (memory.region i).size) 1 := by
        unfold sub64 add64
        omega
      rw [if_pos hlow, if_pos hcut, report, hnone]
      exact not_found_empty _
    rw [if_neg fun h => hmis (hstop.mp h), ih (by omega) (Nat.forall_lt_succ_right.mpr
      ⟨hbefore, by rw [hmeets]; omega⟩)]
    exact hnext hmis
  rw [last_address (by omega) hend]
  split
  · rename_i hhit
    refine iff_of_true (.inl ⟨i, hi, hbefore, hmeets.mpr (by omega), rfl, fun a => ?_⟩) ?_
    · simp only [report, Property.Has]
      rw [← max_def_lt, ← min_def_lt, sub64_eq (by omega) (by omega), add64_eq (by omega)]
      omega
    intro k hik hk hnone
    rcases Nat.lt_or_eq_of_le hik with hlt | rfl
    · exact absurd (hmeets.mpr (by omega)) (hnone i hlt)
    unfold Misread
    omega
  by_cases hlast : (memory.region i).base + 1 = res.base + res.size
  · rw [find_loop_behind h hsize (by omega) (by omega) hlast]
    refine iff_of_false ?_ fun hall =>
      hall i (Nat.le_refl i) hi hbefore (.inr ⟨by omega, hlast⟩)
    rintro (⟨_, _, _, _, hres, _⟩ | ⟨hnone, _⟩)
    · cases hres
    exact hnone i hi (hmeets.mpr (by omega))
  rw [ih (by omega) (Nat.forall_lt_succ_right.mpr ⟨hbefore, by rw [hmeets]; omega⟩)]
  exact hnext (by unfold Misread; omega)

/-- **Main theorem.** `memblock_find` finds the lowest region that the request meets, if and
only if none is misread before; with an empty region at 0 in the table, if and only if the
request is inside a region. -/
theorem memblock_find_lowest : Found memory res (memblock_find memory res) ↔
    if StartsEmpty memory res then
      ∃ i < memory.cnt, ∀ a, res.Has a → (memory.region i).Has a
    else
      ∀ i < memory.cnt, (∀ j < i, ¬Meets res (memory.region j)) →
        ¬Misread res (memory.region i) := by
  unfold memblock_find
  rw [last_address hsize hwrap]
  split
  · rename_i hstart
    obtain ⟨hpos, hfirst, hmore⟩ := hstart
    have hloop : find_loop memory res.base (res.base + res.size - 1) memory.cnt 0 = some res := by
      obtain ⟨fuel, hfuel⟩ := Nat.exists_eq_succ_of_ne_zero (Nat.ne_of_gt hpos)
      rw [hfuel, find_loop]
      have hstop : sub64 (add64 0 0) 1 = 2 ^ 64 - 1 := by decide
      simp only [hfirst, hstop]
      rw [if_neg (by omega), if_pos (by omega), if_neg (by omega), if_neg (by omega),
        sub64_eq (by omega) (by omega), add64_eq (by omega)]
      exact congrArg some (Property.ext rfl (by simp only; omega))
    rw [hloop, report]
    constructor
    · rintro (⟨i, hi, _, _, _, hsame⟩ | ⟨_, hres⟩)
      · exact ⟨i, hi, fun a ha => ((hsame a).mp ha).2⟩
      cases hres
    rintro ⟨i, hi, hin⟩
    have hmem : ∀ a, res.Has a ↔ res.Has a ∧ (memory.region i).Has a :=
      fun a => ⟨fun ha => ⟨ha, hin a ha⟩, And.left⟩
    refine .inl ⟨i, hi, ?_, ⟨res.base, ⟨Nat.le_refl _, by omega⟩, hin _ ⟨Nat.le_refl _, by omega⟩⟩,
      rfl, hmem⟩
    rintro j hj ⟨a, ha, haj⟩
    have hai := hin a ha
    have := h.disjoint j i hj hi
    unfold Property.Has at haj hai
    omega
  rename_i hstart
  rw [find_loop_spec h hsize hword hwrap hstart (zero_add _) fun j hj => absurd hj (not_lt_zero j)]
  exact ⟨fun hall i => hall i (Nat.zero_le i), fun hall i _ => hall i⟩

end find

theorem ascending_one_region : Ascending one_region := by
  refine ⟨fun i _ => show 4096 < 2 ^ 64 ∧ 4096 + 4096 ≤ 2 ^ 64 by decide, fun i j hij hj => ?_⟩
  have hlt : j < 1 := hj
  omega

/-- A request that begins before the region. -/
theorem memblock_find_lowest_one :
    Found one_region ⟨4000, 200⟩ (memblock_find one_region ⟨4000, 200⟩) := by
  refine (memblock_find_lowest ascending_one_region (by decide) (by decide) (by decide)).mpr ?_
  rw [if_neg (by decide)]
  intro i _ _
  show ¬(4096 = 0 ∧ 4000 < 4096 ∧ 4096 + 1 < 4000 + 200 ∨ 0 < 4096 ∧ 4096 + 1 = 4000 + 200)
  decide

/-- A request for the first byte of the region alone is not found. -/
theorem memblock_find_misses_first_byte : Ascending one_region ∧
    Meets ⟨4096, 1⟩ (one_region.region 0) ∧ memblock_find one_region ⟨4096, 1⟩ = (-1, ⟨4096, 1⟩) :=
  ⟨ascending_one_region, ⟨4096, by simp [Property.Has], by simp [Property.Has, one_region]⟩,
    by decide⟩

end Nubernel.Memblock
