import Nubernel.Memblock.Table

/-! # memblock: the table covers what is reserved

When the last region has been freed, the table is
empty and the next call of `memblock_reserve` compares the new region with
what is left in the first two slots. So the result is about the runs in
which these happen not to matter.
-/

open Nat hiding or_right_comm
open LTS

namespace Nubernel.Memblock

/-! ## Sorted tables -/

/-- The regions are not empty, do not wrap around, and there is a gap between
any two. -/
structure Sorted (rgn : Region) : Prop where
  cnt_le : rgn.cnt ≤ MAX_MEMBLOCK_REGIONS
  proper : ∀ i < rgn.cnt, 0 < (rgn.region i).size ∧
    (rgn.region i).base + (rgn.region i).size < 2 ^ 64
  gap : ∀ i j, i < j → j < rgn.cnt →
    (rgn.region i).base + (rgn.region i).size < (rgn.region j).base

variable {b z : Nat}

section tables
variable {rgn : Region} {i k r : Nat} {p : Property}

theorem Sorted.last_eq (h : Sorted rgn) (hpos : 0 < rgn.cnt) : rgn.last = rgn.cnt - 1 := by
  have hle := h.cnt_le
  unfold MAX_MEMBLOCK_REGIONS at hle
  exact sub32_eq (by omega) hpos

/-- A region may be replaced by one that keeps the gaps to the others. -/
theorem Sorted.set (h : Sorted rgn) (hsize : 0 < z) (hwrap : b + z < 2 ^ 64)
    (hlow : ∀ j < i, (rgn.region j).base + (rgn.region j).size < b)
    (hhigh : ∀ j, i < j → j < rgn.cnt → b + z < (rgn.region j).base) :
    Sorted { rgn with region := setRegion rgn.region i ⟨b, z⟩ } := by
  refine ⟨h.cnt_le, ?_, ?_⟩
  · intro j hj
    by_cases hji : j = i
    · subst hji
      simp only [setRegion_self]
      exact ⟨hsize, hwrap⟩
    simpa [hji] using h.proper j hj
  intro j j' hlt hj'
  by_cases hji : j = i
  · subst hji
    simpa [ne_of_gt hlt] using hhigh j' hlt hj'
  by_cases hji' : j' = i
  · subst hji'
    simpa [hji] using hlow j hlt
  simpa [hji, hji'] using h.gap j j' hlt hj'

theorem Sorted.shrink (h : Sorted rgn) (hi : i < rgn.cnt) (hsize : 0 < z)
    (hlow : (rgn.region i).base ≤ b) (hhigh : b + z ≤ (rgn.region i).base + (rgn.region i).size) :
    Sorted { rgn with region := setRegion rgn.region i ⟨b, z⟩ } := by
  have hwrap := (h.proper i hi).2
  refine h.set hsize (by omega) ?_ ?_
  · intro j hj
    have := h.gap j i hj hi
    omega
  intro j hj hj'
  have := h.gap i j hj hj'
  omega

/-- A region without one of its addresses. -/
theorem covered_split (hi : i < rgn.cnt) (a : Nat) :
    Covered rgn a ↔ (rgn.region i).Has a ∨ ∃ j < rgn.cnt, j ≠ i ∧ (rgn.region j).Has a := by
  constructor
  · rintro ⟨j, hj, hhas⟩
    by_cases hji : j = i
    · exact .inl (hji ▸ hhas)
    · exact .inr ⟨j, hj, hji, hhas⟩
  rintro (hhas | ⟨j, hj, _, hhas⟩)
  · exact ⟨i, hi, hhas⟩
  · exact ⟨j, hj, hhas⟩

theorem covered_set (hi : i < rgn.cnt) (a : Nat) :
    Covered { rgn with region := setRegion rgn.region i p } a ↔
      p.Has a ∨ ∃ j < rgn.cnt, j ≠ i ∧ (rgn.region j).Has a := by
  refine (@covered_split ⟨rgn.cnt, setRegion rgn.region i p⟩ i hi a).trans ?_
  simp only [setRegion_self]
  refine or_congr_right (exists_congr fun j => and_congr_right fun _ => and_congr_right fun hji => ?_)
  rw [setRegion_ne _ _ hji]

/-! ### Removing a slot -/

/-- Where the slots come from when slot `r` is removed. -/
def Removed (rgn rgn' : Region) (r : Nat) : Prop :=
  rgn'.cnt = rgn.cnt - 1 ∧
    ∀ j, rgn'.region j = if r ≤ j ∧ j < rgn.cnt - 1 then rgn.region (j + 1) else rgn.region j

theorem shift_down_spec {fuel last : Nat} {region : Nat → Property}
    (hlast : last ≤ MAX_MEMBLOCK_REGIONS) (hfuel : last < fuel + r) (hr : r ≤ last) :
    ∃ region', shift_down fuel region r last = some region' ∧
      ∀ j, region' j = if r ≤ j ∧ j < last then region (j + 1) else region j := by
  induction fuel generalizing region r with
  | zero => omega
  | succ fuel ih => ?_
  unfold shift_down
  by_cases hlt : r < last
  · rw [if_pos hlt, if_pos (by omega)]
    obtain ⟨region', heq, hspec⟩ := @ih (r + 1) (setRegion region r (region (r + 1))) (by omega) hlt
    refine ⟨region', heq, ?_⟩
    intro j
    rw [hspec j]
    by_cases hjr : j = r
    · subst hjr
      rw [if_neg (by omega), if_pos ⟨le_refl j, hlt⟩, setRegion_self]
    by_cases hin : r + 1 ≤ j ∧ j < last
    · rw [if_pos hin, if_pos ⟨by omega, hin.2⟩, setRegion_ne _ _ (by omega)]
    · rw [if_neg hin, if_neg (by omega), setRegion_ne _ _ hjr]
  rw [if_neg hlt]
  refine ⟨region, rfl, ?_⟩
  intro j
  rw [if_neg (by omega)]

theorem remove_region_spec (hcnt : rgn.cnt ≤ MAX_MEMBLOCK_REGIONS) (hr : r < rgn.cnt) :
    ∃ rgn', memblock_remove_region rgn r = some rgn' ∧ Removed rgn rgn' r := by
  have hlast : rgn.last = rgn.cnt - 1 := by
    unfold MAX_MEMBLOCK_REGIONS at hcnt
    exact sub32_eq (by omega) (by omega)
  obtain ⟨region', heq, hspec⟩ := @shift_down_spec r (MAX_MEMBLOCK_REGIONS + 2) (rgn.cnt - 1) rgn.region (by omega) (by omega) (by omega)
  refine ⟨⟨rgn.cnt - 1, region'⟩, ?_, rfl, hspec⟩
  unfold memblock_remove_region
  rw [hlast, heq]
  rfl

variable {rgn' : Region}

theorem Sorted.remove (h : Sorted rgn) (hrem : Removed rgn rgn' r) :
    Sorted rgn' := by
  obtain ⟨hcnt, hspec⟩ := hrem
  have hle := h.cnt_le
  refine ⟨by omega, ?_, ?_⟩
  · intro j hj
    rw [hspec j]
    split
    · exact h.proper (j + 1) (by omega)
    · exact h.proper j (by omega)
  intro j j' hlt hj'
  rw [hspec j, hspec j']
  split
  · rw [if_pos (by omega)]
    exact h.gap (j + 1) (j' + 1) (by omega) (by omega)
  split
  · exact h.gap j (j' + 1) (by omega) (by omega)
  · exact h.gap j j' hlt (by omega)

theorem covered_remove (hr : r < rgn.cnt) (hrem : Removed rgn rgn' r) (a : Nat) :
    Covered rgn' a ↔ ∃ j < rgn.cnt, j ≠ r ∧ (rgn.region j).Has a := by
  obtain ⟨hcnt, hspec⟩ := hrem
  constructor
  · rintro ⟨j, hj, hhas⟩
    rw [hspec j] at hhas
    split at hhas
    · exact ⟨j + 1, by omega, by omega, hhas⟩
    · exact ⟨j, by omega, by omega, hhas⟩
  rintro ⟨j, hj, hjr, hhas⟩
  -- A slot above the removed one is found one place lower.
  by_cases hlt : j < r
  · refine ⟨j, by omega, ?_⟩
    rw [hspec j, if_neg (by omega)]
    exact hhas
  refine ⟨j - 1, by omega, ?_⟩
  rw [hspec (j - 1), if_pos (by omega), Nat.sub_add_cancel (by omega)]
  exact hhas

/-! ### Inserting a slot -/

/-- Where the slots come from when `p` is put into slot `k`. -/
def Inserted (rgn rgn' : Region) (k : Nat) (p : Property) : Prop :=
  k ≤ rgn.cnt ∧ rgn'.cnt = rgn.cnt + 1 ∧
    ∀ j ≤ rgn.cnt, rgn'.region j =
      if j < k then rgn.region j else if j = k then p else rgn.region (j - 1)

theorem Sorted.insert {rgn' : Region} (h : Sorted rgn) (hins : Inserted rgn rgn' k ⟨b, z⟩)
    (hcnt : rgn.cnt < MAX_MEMBLOCK_REGIONS) (hsize : 0 < z) (hwrap : b + z < 2 ^ 64)
    (hlow : ∀ j < k, (rgn.region j).base + (rgn.region j).size < b)
    (hhigh : ∀ j, k ≤ j → j < rgn.cnt → b + z < (rgn.region j).base) : Sorted rgn' := by
  obtain ⟨hk, hcnt', hspec⟩ := hins
  refine ⟨by omega, ?_, ?_⟩
  · intro j hj
    rw [hspec j (by omega)]
    split_ifs with hjk hjk'
    · exact h.proper j (by omega)
    · exact ⟨hsize, hwrap⟩
    · exact h.proper (j - 1) (by omega)
  intro j j' hlt hj'
  rw [hspec j (by omega), hspec j' (by omega)]
  -- The new region is neither, the upper, the lower one of the two.
  split_ifs with hjk hjk' hjk'' hjk' <;> try omega
  · exact h.gap j j' hlt (by omega)
  · exact hlow j hjk
  · exact h.gap j (j' - 1) (by omega) (by omega)
  · exact hhigh (j' - 1) (by omega) (by omega)
  · exact h.gap (j - 1) (j' - 1) (by omega) (by omega)

theorem covered_insert (hins : Inserted rgn rgn' k p) (a : Nat) :
    Covered rgn' a ↔ Covered rgn a ∨ p.Has a := by
  obtain ⟨hk, hcnt', hspec⟩ := hins
  constructor
  · rintro ⟨j, hj, hhas⟩
    rw [hspec j (by omega)] at hhas
    split_ifs at hhas with hjk hjk'
    · exact .inl ⟨j, by omega, hhas⟩
    · exact .inr hhas
    · exact .inl ⟨j - 1, by omega, hhas⟩
  rintro (⟨j, hj, hhas⟩ | hhas)
  · by_cases hjk : j < k
    · refine ⟨j, by omega, ?_⟩
      rw [hspec j (by omega), if_pos hjk]
      exact hhas
    refine ⟨j + 1, by omega, ?_⟩
    rw [hspec (j + 1) (by omega), if_neg (by omega), if_neg (by omega)]
    exact hhas
  refine ⟨k, by omega, ?_⟩
  rw [hspec k hk, if_neg (by omega), if_pos rfl]
  exact hhas

/-- The loop stops in front of the first region that is not higher. -/
theorem make_room_spec (base size n : Nat) (region : Nat → Property) :
    ∃ k ≤ n, (∀ j, k ≤ j → j < n → base < (region j).base) ∧
      (0 < k → ¬base < (region (k - 1)).base) ∧
      ∀ j, make_room base size n region j =
        if j < k ∨ n < j then region j
        else if j = k then (if 0 < k then ⟨base, size⟩ else region 0) else region (j - 1) := by
  induction n generalizing region with
  | zero =>
    refine ⟨0, le_refl 0, fun j _ hj => by omega, fun h => by omega, ?_⟩
    intro j
    unfold make_room
    by_cases hj : j = 0
    · subst hj
      simp
    rw [if_pos (by omega)]
  | succ n ih => ?_
  unfold make_room
  by_cases hlt : base < (region n).base
  · rw [if_pos hlt]
    obtain ⟨k, hk, habove, hbelow, hspec⟩ := ih (setRegion region (n + 1) (region n))
    refine ⟨k, by omega, ?_, ?_, ?_⟩
    · intro j hj hjn
      by_cases hjn' : j = n
      · exact hjn' ▸ hlt
      have := habove j hj (by omega)
      rwa [setRegion_ne _ _ (by omega)] at this
    · intro hpos
      have := hbelow hpos
      rwa [setRegion_ne _ _ (by omega)] at this
    intro j
    rw [hspec j]
    by_cases hjn : j = n + 1
    · -- The slot that the region in slot `n` was moved to.
      subst hjn
      rw [if_pos (by omega), setRegion_self, if_neg (by omega), if_neg (by omega),
        Nat.add_sub_cancel]
    have hzero : setRegion region (n + 1) (region n) 0 = region 0 :=
      setRegion_ne _ _ (by omega)
    by_cases hout : j < k ∨ n < j
    · rw [if_pos hout, if_pos (by omega), setRegion_ne _ _ hjn]
    have hprev : j - 1 ≠ n + 1 := by omega
    rw [if_neg hout, hzero, setRegion_ne _ _ hprev, if_neg (show ¬(j < k ∨ n + 1 < j) by omega)]
  rw [if_neg hlt]
  refine ⟨n + 1, le_refl _, fun j hj hjn => by omega, fun _ => hlt, ?_⟩
  intro j
  by_cases hjn : j = n + 1
  · subst hjn
    simp
  rw [setRegion_ne _ _ hjn, if_pos (by omega)]

/-- `insert_sorted` puts the region in front of the first higher one. -/
theorem insert_sorted_spec (h : Sorted rgn) (hpos : 0 < rgn.cnt)
    (hcnt : rgn.cnt < MAX_MEMBLOCK_REGIONS) (base size : Nat) :
    ∃ k, Inserted rgn (insert_sorted rgn base size) k ⟨base, size⟩ ∧
      (∀ j, k ≤ j → j < rgn.cnt → base < (rgn.region j).base) ∧
      (∀ j < k, (rgn.region j).base ≤ base) := by
  have hcnt' : rgn.cnt < 128 := hcnt
  have hrounds : (toInt32 rgn.last + 1).toNat = rgn.cnt := by
    rw [h.last_eq hpos, toInt32_eq (by omega) (by omega)]
    omega
  obtain ⟨k, hk, habove, hbelow, hspec⟩ := make_room_spec base size rgn.cnt rgn.region
  have hlow : ∀ j < k, (rgn.region j).base ≤ base := by
    intro j hj
    have hstop := hbelow (by omega)
    by_cases hjk : j = k - 1
    · exact hjk ▸ Nat.le_of_not_lt hstop
    have := h.gap j (k - 1) (by omega) (by omega)
    omega
  refine ⟨k, ⟨hk, ?_, ?_⟩, habove, hlow⟩
  · exact add32_eq (by omega)
  intro j hj
  unfold insert_sorted
  simp only [hrounds]
  have hzero := hspec 0
  by_cases hk0 : 0 < k
  · -- The first slot has not changed, and it is not higher.
    rw [if_pos (by omega)] at hzero
    have hle := hlow 0 hk0
    rw [if_neg (by rw [hzero]; omega), hspec j]
    by_cases hjk : j < k
    · rw [if_pos (by omega), if_pos hjk]
    · rw [if_neg (by omega), if_neg hjk, if_pos hk0]
  have hk0' : k = 0 := by omega
  subst hk0'
  rw [if_pos (by rw [hzero]; exact habove 0 (by omega) hpos)]
  by_cases hj0 : j = 0
  · subst hj0
    simp
  rw [setRegion_ne _ _ hj0, hspec j, if_neg (by omega), if_neg hj0, if_neg (by omega), if_neg hj0]

end tables

/-! ## The functions -/

section functions
variable {rgn : Region} {base size : Nat}

variable {base1 size1 base2 size2 : Nat}

section
variable (h1 : base1 + size1 < 2 ^ 64)
include h1

theorem addrs_adjacent_pos :
    memblock_addrs_adjacent base1 size1 base2 size2 > 0 ↔ base2 = base1 + size1 := by
  unfold memblock_addrs_adjacent
  rw [add64_eq h1]
  split_ifs <;> simp_all

theorem addrs_adjacent_neg (h2 : base2 + size2 < 2 ^ 64) (hne : base2 ≠ base1 + size1) :
    memblock_addrs_adjacent base1 size1 base2 size2 < 0 ↔ base1 = base2 + size2 := by
  unfold memblock_addrs_adjacent
  rw [add64_eq h1, add64_eq h2, if_neg hne]
  split_ifs <;> simp_all

theorem addrs_adjacent_ne_zero (h2 : base2 + size2 < 2 ^ 64) :
    memblock_addrs_adjacent base1 size1 base2 size2 ≠ 0 ↔
      base2 = base1 + size1 ∨ base1 = base2 + size2 := by
  unfold memblock_addrs_adjacent
  rw [add64_eq h1, add64_eq h2]
  split_ifs <;> simp_all

end

/-- The region `p` directly follows that in slot `i`, or the other way round. -/
def Touches (rgn : Region) (base size i : Nat) : Prop :=
  (rgn.region i).base = base + size ∨ base = (rgn.region i).base + (rgn.region i).size

/-- How the search can end. -/
inductive Scanned (rgn : Region) (base size i : Nat) : Scan → Prop where
  | known {j : Nat} : j < rgn.cnt → rgn.region j = ⟨base, size⟩ → Scanned rgn base size i .known
  /-- The region directly precedes that in slot `j`. -/
  | below {j : Nat} : i ≤ j → j < rgn.cnt → (rgn.region j).base = base + size →
      (∀ j', i ≤ j' → j' < j → ¬Touches rgn base size j') →
      Scanned rgn base size i (.joined j ⟨rgn.cnt,
        setRegion rgn.region j ⟨base, (rgn.region j).size + size⟩⟩)
  /-- It directly follows it. -/
  | above {j : Nat} : i ≤ j → j < rgn.cnt → base = (rgn.region j).base + (rgn.region j).size →
      (∀ j', i ≤ j' → j' < j → ¬Touches rgn base size j') →
      Scanned rgn base size i (.joined j ⟨rgn.cnt,
        setRegion rgn.region j ⟨(rgn.region j).base, (rgn.region j).size + size⟩⟩)
  | apart : (∀ j', i ≤ j' → j' < rgn.cnt → ¬Touches rgn base size j' ∧
      rgn.region j' ≠ ⟨base, size⟩) → Scanned rgn base size i .apart

section
variable (h : Sorted rgn)
include h

theorem scan_spec (hwrap : base + size < 2 ^ 64) (fuel i : Nat) (hfuel : i + fuel = rgn.cnt) :
    Scanned rgn base size i (scan rgn base size fuel i) := by
  induction fuel generalizing i with
  | zero => exact .apart fun j hj hj' => by omega
  | succ fuel ih => ?_
  have hi : i < rgn.cnt := by omega
  obtain ⟨hisize, hiwrap⟩ := h.proper i hi
  unfold scan
  by_cases hsame : (rgn.region i).base = base ∧ (rgn.region i).size = size
  · rw [if_pos hsame]
    exact .known hi (by rw [← hsame.1, ← hsame.2])
  rw [if_neg hsame]
  by_cases hbelow : (rgn.region i).base = base + size
  · rw [if_pos ((addrs_adjacent_pos hwrap).mpr hbelow)]
    have hbase : sub64 (rgn.region i).base size = base := by
      rw [sub64_eq (by omega) (by omega)]
      omega
    rw [hbase, add64_eq (by omega)]
    exact .below (le_refl i) hi hbelow fun j hj hj' => by omega
  rw [if_neg (fun hpos => hbelow ((addrs_adjacent_pos hwrap).mp hpos))]
  by_cases habove : base = (rgn.region i).base + (rgn.region i).size
  · rw [if_pos ((addrs_adjacent_neg hwrap hiwrap hbelow).mpr habove), add64_eq (by omega)]
    exact .above (le_refl i) hi habove fun j hj hj' => by omega
  rw [if_neg (fun hneg => habove ((addrs_adjacent_neg hwrap hiwrap hbelow).mp hneg))]
  -- Slot `i` is no neighbour: the search goes on.
  have hskip : ¬Touches rgn base size i := by
    rintro (hb | ha)
    · exact hbelow hb
    · exact habove ha
  have hextend : ∀ {Q : Nat → Prop}, Q i → ∀ j, (∀ j', i + 1 ≤ j' → j' < j → Q j') →
      ∀ j', i ≤ j' → j' < j → Q j' := by
    intro Q hQ j hrest j' hj' hlt
    by_cases hji : j' = i
    · exact hji ▸ hQ
    · exact hrest j' (by omega) hlt
  have hrest := ih (i + 1) (by omega)
  generalize scan rgn base size fuel (i + 1) = res at hrest
  cases hrest with
  | known hj heq => exact .known hj heq
  | below hle hj heq hno => exact .below (by omega) hj heq (hextend hskip _ hno)
  | above hle hj heq hno => exact .above (by omega) hj heq (hextend hskip _ hno)
  | apart hno => ?_
  refine .apart (hextend (Q := fun j' => ¬Touches rgn base size j' ∧
    rgn.region j' ≠ ⟨base, size⟩) ⟨hskip, ?_⟩ _ hno)
  intro heq
  exact hsame (by rw [heq]; exact ⟨rfl, rfl⟩)

variable {i j : Nat}

/-- In a sorted table no two neighbours touch. -/
theorem Sorted.not_adjacent (hi : i + 1 < rgn.cnt) :
    memblock_regions_adjacent rgn i (i + 1) = 0 := by
  have hgap := h.gap i (i + 1) (lt_succ_self i) hi
  have hwrap := (h.proper (i + 1) hi).2
  by_contra hne
  rcases (addrs_adjacent_ne_zero (h.proper i (by omega)).2 hwrap).mp hne with heq | heq <;> omega

/-- Nothing more is to be joined if the table is sorted already. -/
theorem add_scanned_sorted (hi : i < rgn.cnt) :
    add_scanned rgn base size i 1 = some (1, rgn) := by
  have hno : ¬(i < rgn.last ∧ memblock_regions_adjacent rgn i (i + 1) ≠ 0) := by
    rintro ⟨hlast, hne⟩
    rw [h.last_eq (by omega)] at hlast
    exact hne (h.not_adjacent (by omega))
  unfold add_scanned
  rw [if_neg hno]
  rfl

/-- The region touches no other: it is put into the table if there is room. -/
theorem add_scanned_apart (hpos : 0 < rgn.cnt) :
    add_scanned rgn base size rgn.cnt 0 =
      if rgn.cnt ≥ MAX_MEMBLOCK_REGIONS then some (-1, rgn)
      else some (0, insert_sorted rgn base size) := by
  have hno : ¬(rgn.cnt < rgn.last ∧ memblock_regions_adjacent rgn rgn.cnt (rgn.cnt + 1) ≠ 0) := by
    rintro ⟨hlast, _⟩
    rw [h.last_eq hpos] at hlast
    omega
  unfold add_scanned
  rw [if_neg hno]
  rfl

/-- What adding a region makes of the table. -/
def Adds (rgn rgn' : Region) (base size : Nat) : Prop :=
  Sorted rgn' ∧ 0 < rgn'.cnt ∧
    ∀ a, Covered rgn' a ↔ Covered rgn a ∨ Property.Has ⟨base, size⟩ a

/-- The region is joined with a neighbour, and with no other. -/
theorem Adds.of_set (hi : i < rgn.cnt) (hsize : 0 < z) (hwrap : b + z < 2 ^ 64)
    (hlow : ∀ j < i, (rgn.region j).base + (rgn.region j).size < b)
    (hhigh : ∀ j, i < j → j < rgn.cnt → b + z < (rgn.region j).base)
    (hhas : ∀ a, Property.Has ⟨b, z⟩ a ↔ (rgn.region i).Has a ∨ Property.Has ⟨base, size⟩ a) :
    Adds rgn ⟨rgn.cnt, setRegion rgn.region i ⟨b, z⟩⟩ base size := by
  refine ⟨h.set hsize hwrap hlow hhigh, zero_lt_of_lt hi, ?_⟩
  intro a
  rw [covered_set hi a, covered_split hi a, hhas a, or_right_comm]

/-- It is joined with the regions in slots `i` and `i + 1`, between which it
lies. -/
theorem coalesce_spec (hi : i + 1 < rgn.cnt)
    (hlow : base = (rgn.region i).base + (rgn.region i).size)
    (hhigh : (rgn.region (i + 1)).base = base + size) :
    ∃ rgn', add_scanned ⟨rgn.cnt,
        setRegion rgn.region i ⟨(rgn.region i).base, (rgn.region i).size + size⟩⟩ base size i 1 =
      some (2, rgn') ∧ Adds rgn rgn' base size := by
  have hwrap := (h.proper (i + 1) hi).2
  have hisize := (h.proper i (by omega)).1
  let p : Property := ⟨(rgn.region i).base, (rgn.region i).size + size + (rgn.region (i + 1)).size⟩
  obtain ⟨rgnR, hremR, hspecR⟩ := remove_region_spec h.cnt_le hi
  let rgn₁ : Region := ⟨rgn.cnt,
    setRegion rgn.region i ⟨(rgn.region i).base, (rgn.region i).size + size⟩⟩
  let rgn₂ : Region := ⟨rgn.cnt, setRegion rgn₁.region i p⟩
  obtain ⟨rgn', hrem, hspec⟩ := @remove_region_spec rgn₂ (i + 1) h.cnt_le hi
  -- Removing slot `i + 1` and changing slot `i` do not depend on each other.
  have heq : rgn' = ⟨rgnR.cnt, setRegion rgnR.region i p⟩ := by
    have hcnt : rgn'.cnt = rgnR.cnt := hspec.1.trans hspecR.1.symm
    have hregion : rgn'.region = setRegion rgnR.region i p := by
      funext j
      rw [hspec.2 j]
      by_cases hji : j = i
      · subst hji
        simp [rgn₂]
      rw [setRegion_ne _ _ hji, hspecR.2 j]
      split
      · simp [rgn₂, rgn₁, setRegion_ne _ _ (show j + 1 ≠ i by omega)]
      · simp [rgn₂, rgn₁, setRegion_ne _ _ hji]
    cases rgn'
    simp only at hcnt hregion
    rw [hcnt, hregion]
  have h1 : rgn₁.region i = ⟨(rgn.region i).base, (rgn.region i).size + size⟩ :=
    setRegion_self _ _ _
  have h2 : rgn₁.region (i + 1) = rgn.region (i + 1) := setRegion_ne _ _ (by omega)
  have hlast : rgn₁.last = rgn.cnt - 1 := h.last_eq (by omega)
  have hadj : i < rgn₁.last ∧ memblock_regions_adjacent rgn₁ i (i + 1) ≠ 0 := by
    refine ⟨by omega, ?_⟩
    unfold memblock_regions_adjacent
    rw [h1, h2, addrs_adjacent_ne_zero (by simp only; omega) hwrap]
    left
    simp only
    omega
  have hcoalesce : memblock_coalesce_regions rgn₁ i (i + 1) = some rgn' := by
    unfold memblock_coalesce_regions
    simp only [h1, h2]
    rw [add64_eq (by omega)]
    exact hrem
  refine ⟨rgn', ?_, ?_⟩
  · unfold add_scanned
    rw [if_pos hadj, hcoalesce]
    rfl
  have hcntR : rgnR.cnt = rgn.cnt - 1 := hspecR.1
  have hlowR : ∀ j ≤ i, rgnR.region j = rgn.region j := by
    intro j hj
    rw [hspecR.2 j, if_neg (by omega)]
  -- Slot `i` is joined with what is added and with the region removed.
  have hset : Adds rgnR ⟨rgnR.cnt, setRegion rgnR.region i p⟩ base
      (size + (rgn.region (i + 1)).size) := by
    refine Adds.of_set (h.remove hspecR) (by omega) (by omega) (by omega) ?_ ?_ ?_
    · intro j hj
      rw [hlowR j (by omega)]
      exact h.gap j i hj (by omega)
    · intro j hj hj'
      rw [hspecR.2 j, if_pos (by omega)]
      have := h.gap (i + 1) (j + 1) (by omega) (by omega)
      omega
    intro a
    rw [hlowR i (le_refl i)]
    unfold Property.Has
    simp only
    omega
  obtain ⟨hsorted, hpos, hcov⟩ := hset
  rw [heq]
  refine ⟨hsorted, hpos, ?_⟩
  intro a
  have hboth : Property.Has ⟨base, size + (rgn.region (i + 1)).size⟩ a ↔
      (rgn.region (i + 1)).Has a ∨ Property.Has ⟨base, size⟩ a := by
    unfold Property.Has
    simp only
    omega
  rw [hcov a, covered_remove hi hspecR a, hboth, covered_split hi a, ← or_assoc,
    or_comm (a := (rgn.region (i + 1)).Has a)]

omit h in
/-- A neighbour of a region that fits is disjoint from it. -/
theorem Fits.disjoint (hfits : Fits rgn base size) (h : Sorted rgn) (hsize : 0 < size)
    (hj : j < rgn.cnt) (htouch : Touches rgn base size j) :
    ∀ i < rgn.cnt, base + size ≤ (rgn.region i).base ∨
      (rgn.region i).base + (rgn.region i).size ≤ base := by
  rcases hfits with ⟨i, hi, heq⟩ | hdis
  · -- If the region were in the table, there would be a gap.
    have hbase : (rgn.region i).base = base := by rw [heq]
    have hsize' : (rgn.region i).size = size := by rw [heq]
    unfold Touches at htouch
    rcases lt_trichotomy i j with hlt | heq' | hgt
    · have := h.gap i j hlt hj
      omega
    · subst heq'
      omega
    have := h.gap j i hgt hi
    omega
  exact hdis

/-- **Adding a region** to a sorted table that is not empty. -/
theorem add_region_spec (hpos : 0 < rgn.cnt) (hsize : 0 < size) (hwrap : base + size < 2 ^ 64)
    (hfits : Fits rgn base size) :
    ∃ ret rgn', memblock_add_region rgn base size = some (ret, rgn') ∧
      (0 ≤ ret → Adds rgn rgn' base size) := by
  have hdummy : ¬(rgn.cnt = 1 ∧ (rgn.region 0).size = 0) := by
    rintro ⟨_, hzero⟩
    have := (h.proper 0 hpos).1
    omega
  have hscan := scan_spec h hwrap rgn.cnt 0 (zero_add _)
  unfold memblock_add_region
  rw [if_neg hdummy]
  generalize scan rgn base size rgn.cnt 0 = res at hscan
  cases hscan with
  | known hj heq =>
    refine ⟨0, rgn, rfl, fun _ => ⟨h, hpos, ?_⟩⟩
    intro a
    constructor
    · exact .inl
    rintro (hcov | hhas)
    · exact hcov
    · exact ⟨_, hj, heq ▸ hhas⟩
  | @below j _ hj heq hno =>
    have hdis := hfits.disjoint h hsize hj (.inl heq)
    obtain ⟨hjsize, hjwrap⟩ := h.proper j hj
    have hadds : Adds rgn ⟨rgn.cnt, setRegion rgn.region j ⟨base, (rgn.region j).size + size⟩⟩
        base size := by
      refine Adds.of_set h hj (by omega) (by omega) ?_ ?_ ?_
      · intro j' hj'
        have hgap := h.gap j' j hj' hj
        have hne : base ≠ (rgn.region j').base + (rgn.region j').size :=
          fun heq' => hno j' (zero_le _) hj' (.inr heq')
        have := hdis j' (by omega)
        omega
      · intro j' hj' hj''
        have := h.gap j j' hj' hj''
        omega
      intro a
      unfold Property.Has
      simp only
      omega
    exact ⟨1, _, add_scanned_sorted hadds.1 hj, fun _ => hadds⟩
  | @above j _ hj heq hno =>
    have hdis := hfits.disjoint h hsize hj (.inr heq)
    by_cases hboth : j + 1 < rgn.cnt ∧ (rgn.region (j + 1)).base = base + size
    · obtain ⟨rgn', hadd, hadds⟩ := coalesce_spec h hboth.1 heq hboth.2
      exact ⟨2, rgn', hadd, fun _ => hadds⟩
    have hadds : Adds rgn ⟨rgn.cnt, setRegion rgn.region j
        ⟨(rgn.region j).base, (rgn.region j).size + size⟩⟩ base size := by
      refine Adds.of_set h hj (by omega) (by omega) ?_ ?_ ?_
      · intro j' hj'
        exact h.gap j' j hj' hj
      · intro j' hj' hj''
        -- Only the next region could touch the new one.
        have hnext : (rgn.region (j + 1)).base ≤ (rgn.region j').base := by
          by_cases hjj : j' = j + 1
          · rw [hjj]
          have := h.gap (j + 1) j' (by omega) hj''
          omega
        have := hdis (j + 1) (by omega)
        have := h.gap j (j + 1) (by omega) (by omega)
        omega
      intro a
      unfold Property.Has
      simp only
      omega
    exact ⟨1, _, add_scanned_sorted hadds.1 hj, fun _ => hadds⟩
  | apart hno =>
    have hdis : ∀ i < rgn.cnt, base + size ≤ (rgn.region i).base ∨
        (rgn.region i).base + (rgn.region i).size ≤ base := by
      rcases hfits with ⟨i, hi, heq⟩ | hdis
      · exact absurd heq (hno i (zero_le _) hi).2
      · exact hdis
    simp only [add_scanned_apart h hpos]
    by_cases hfull : rgn.cnt ≥ MAX_MEMBLOCK_REGIONS
    · rw [if_pos hfull]
      exact ⟨-1, rgn, rfl, fun hneg => absurd hneg (by decide)⟩
    rw [if_neg hfull]
    obtain ⟨k, hins, habove, hbelow⟩ := insert_sorted_spec h hpos (lt_of_not_ge hfull) base size
    refine ⟨0, _, rfl, fun _ => ⟨?_, ?_, covered_insert hins⟩⟩
    · refine h.insert hins (lt_of_not_ge hfull) hsize hwrap ?_ ?_
      · intro j hj
        have hj' : j < rgn.cnt := lt_of_lt_of_le hj hins.1
        have hne : base ≠ (rgn.region j).base + (rgn.region j).size :=
          fun heq => (hno j (zero_le _) hj').1 (.inr heq)
        have := hbelow j hj
        have := hdis j hj'
        omega
      intro j hj hj'
      have hne : (rgn.region j).base ≠ base + size :=
        fun heq => (hno j (zero_le _) hj').1 (.inl heq)
      have := habove j hj hj'
      have := hdis j hj'
      omega
    rw [hins.2.1]
    exact succ_pos _

theorem Sorted.unique {a : Nat} (hi : i < rgn.cnt) (hj : j < rgn.cnt) (hia : (rgn.region i).Has a)
    (hja : (rgn.region j).Has a) : i = j := by
  unfold Property.Has at hia hja
  rcases lt_trichotomy i j with hlt | heq | hgt
  · have := h.gap i j hlt hj
    omega
  · exact heq
  have := h.gap j i hgt hi
  omega

/-- The search finds the region of which a part is to be freed. -/
theorem find_region_eq {stop : Nat} (hi : i < rgn.cnt) (hlow : (rgn.region i).base ≤ base)
    (hhigh : stop ≤ (rgn.region i).base + (rgn.region i).size) (hle : base ≤ stop) (fuel k : Nat)
    (hfuel : k + fuel = rgn.cnt) (hk : k ≤ i) :
    find_region rgn base stop fuel k = some i := by
  induction fuel generalizing k with
  | zero => omega
  | succ fuel ih => ?_
  unfold find_region
  simp only [add64_eq (h.proper k (by omega)).2]
  by_cases hki : k = i
  · subst hki
    rw [if_pos ⟨hlow, hhigh⟩]
  have := h.gap k i (by omega) hi
  rw [if_neg (by omega)]
  exact ih (k + 1) (by omega) (by omega)

/-- What freeing a part of a region makes of the table. -/
def Frees (rgn rgn' : Region) (base size : Nat) : Prop :=
  Sorted rgn' ∧ ∀ a, Covered rgn' a ↔ Covered rgn a ∧ ¬Property.Has ⟨base, size⟩ a

/-- If one region keeps the addresses that are not freed, that is all. -/
theorem Frees.of_others {rgn' : Region} {P : Nat → Prop} (hi : i < rgn.cnt)
    (hsorted : Sorted rgn') (hpart : ∀ a, Property.Has ⟨base, size⟩ a → (rgn.region i).Has a)
    (hkeep : ∀ a, P a ↔ (rgn.region i).Has a ∧ ¬Property.Has ⟨base, size⟩ a)
    (hcov : ∀ a, Covered rgn' a ↔ P a ∨ ∃ j < rgn.cnt, j ≠ i ∧ (rgn.region j).Has a) :
    Frees rgn rgn' base size := by
  refine ⟨hsorted, ?_⟩
  intro a
  rw [hcov a, hkeep a, covered_split hi a]
  constructor
  · rintro (⟨hhas, hnot⟩ | ⟨j, hj, hji, hhas⟩)
    · exact ⟨.inl hhas, hnot⟩
    · exact ⟨.inr ⟨j, hj, hji, hhas⟩, fun hin => hji (h.unique hj hi hhas (hpart a hin))⟩
  rintro ⟨hhas | hother, hnot⟩
  · exact .inl ⟨hhas, hnot⟩
  · exact .inr hother

/-- **Freeing a part of a region.** -/
theorem remove_spec (hi : i < rgn.cnt) (hlow : (rgn.region i).base ≤ base)
    (hhigh : base + size ≤ (rgn.region i).base + (rgn.region i).size) :
    ∃ ret rgn', memblock_remove rgn base size = some (ret, rgn') ∧
      (0 ≤ ret → Frees rgn rgn' base size) := by
  obtain ⟨hisize, hiwrap⟩ := h.proper i hi
  have hstop : add64 base size = base + size := add64_eq (by omega)
  have hend : add64 (rgn.region i).base (rgn.region i).size =
      (rgn.region i).base + (rgn.region i).size := add64_eq hiwrap
  have hpart : ∀ a, Property.Has ⟨base, size⟩ a → (rgn.region i).Has a := by
    intro a ha
    unfold Property.Has at *
    simp only at ha
    omega
  unfold memblock_remove
  simp only [hstop]
  rw [find_region_eq h hi hlow hhigh (le_add_right _ _) rgn.cnt 0 (zero_add _) (zero_le _)]
  simp only [hend]
  by_cases hall : (rgn.region i).base = base ∧
      (rgn.region i).base + (rgn.region i).size = base + size
  · rw [if_pos hall]
    obtain ⟨rgn', hrem, hspec⟩ := remove_region_spec h.cnt_le hi
    rw [hrem]
    refine ⟨0, rgn', rfl, fun _ => ?_⟩
    refine Frees.of_others (P := fun _ => False) h hi (h.remove hspec) hpart ?_ ?_
    · intro a
      rw [false_iff]
      rintro ⟨hin, hout⟩
      unfold Property.Has at hin hout
      simp only at hout
      omega
    intro a
    rw [covered_remove hi hspec a, false_or]
  rw [if_neg hall]
  by_cases hfront : (rgn.region i).base = base
  · rw [if_pos hfront, sub64_eq (by omega) (by omega)]
    refine ⟨0, _, rfl, fun _ => ?_⟩
    refine Frees.of_others h hi (h.shrink hi (by omega) (by omega) (by omega)) hpart ?_ (covered_set hi)
    intro a
    unfold Property.Has
    simp only
    omega
  rw [if_neg hfront]
  by_cases hback : (rgn.region i).base + (rgn.region i).size = base + size
  · rw [if_pos hback, sub64_eq (by omega) (by omega)]
    refine ⟨0, _, rfl, fun _ => ?_⟩
    refine Frees.of_others h hi (h.shrink hi (by omega) (by omega) (by omega)) hpart ?_ (covered_set hi)
    intro a
    unfold Property.Has
    simp only
    omega
  rw [if_neg hback, sub64_eq (by omega) (by omega), sub64_eq (by omega) (by omega)]
  -- The front part stays in its slot, the rest is added.
  have hsorted := h.shrink (b := (rgn.region i).base) (z := base - (rgn.region i).base) hi
    (by omega) (by omega) (by omega)
  have hfits : Fits ⟨rgn.cnt, setRegion rgn.region i
      ⟨(rgn.region i).base, base - (rgn.region i).base⟩⟩ (base + size)
      ((rgn.region i).base + (rgn.region i).size - (base + size)) := by
    right
    intro j hj
    by_cases hji : j = i
    · subst hji
      simp only [setRegion_self]
      omega
    simp only [setRegion_ne _ _ hji]
    rcases lt_or_gt_of_ne hji with hlt | hgt
    · have := h.gap j i hlt hi
      omega
    have := h.gap i j hgt hj
    omega
  obtain ⟨ret, rgn', hadd, hspec⟩ := add_region_spec hsorted (by simp only; omega)
    (by omega) (by omega) hfits
  refine ⟨ret, rgn', hadd, fun hret => ?_⟩
  obtain ⟨hsorted', _, hcov⟩ := hspec hret
  refine Frees.of_others h hi hsorted' hpart (P := fun a =>
    Property.Has ⟨(rgn.region i).base, base - (rgn.region i).base⟩ a ∨
    Property.Has ⟨base + size, (rgn.region i).base + (rgn.region i).size - (base + size)⟩ a)
    ?_ ?_
  · intro a
    unfold Property.Has
    simp only
    omega
  intro a
  rw [hcov a, covered_set hi a, or_right_comm]

end

end functions

/-! ## Runs -/

/-- If the table is empty, what is left in the first two slots does no harm: the
regions there do not touch, and the first of them is above the new region
or equal to it. -/
def StaleHarmless (rgn : Region) : Label → Prop
  | .reserve base size => rgn.cnt = 0 → memblock_regions_adjacent rgn 0 1 = 0 ∧
      (base < (rgn.region 0).base ∨ rgn.region 0 = ⟨base, size⟩)
  | .free _ _ => True

/-- The table is sorted and covers `A`, or it holds nothing but the region of
size 0 that it starts with. -/
def Inv (rgn : Region) (A : Nat → Prop) : Prop :=
  (Sorted rgn ∧ ∀ a, Covered rgn a ↔ A a) ∨
    (rgn.cnt = 1 ∧ (rgn.region 0).size = 0 ∧ ∀ a, ¬A a)

section runs
variable {rgn rgn' : Region} {base size : Nat} {A : Nat → Prop} {ret : Int}

theorem Inv.of_single (hsize : 0 < size) (hwrap : base + size < 2 ^ 64)
    (hcnt : rgn.cnt = 1) (hregion : rgn.region 0 = ⟨base, size⟩) (hA : ∀ a, ¬A a) :
    Inv rgn (fun a => A a ∨ Property.Has ⟨base, size⟩ a) := by
  left
  refine ⟨⟨by rw [hcnt]; decide, ?_, fun i j hlt hj => by omega⟩, ?_⟩
  · intro i hi
    have hzero : i = 0 := by omega
    subst hzero
    rw [hregion]
    exact ⟨hsize, hwrap⟩
  intro a
  constructor
  · rintro ⟨i, hi, hhas⟩
    have hzero : i = 0 := by omega
    subst hzero
    exact .inr (hregion ▸ hhas)
  rintro (ha | hhas)
  · exact absurd ha (hA a)
  · exact ⟨0, by omega, hregion.symm ▸ hhas⟩

/-- The first region after the last one was freed. -/
theorem add_region_empty (hcnt : rgn.cnt = 0)
    (hadj : memblock_regions_adjacent rgn 0 1 = 0)
    (hfirst : base < (rgn.region 0).base ∨ rgn.region 0 = ⟨base, size⟩) :
    ∃ rgn', memblock_add_region rgn base size = some (0, rgn') ∧ rgn'.cnt = 1 ∧
      rgn'.region 0 = ⟨base, size⟩ := by
  have hno : ¬(rgn.cnt < rgn.last ∧ memblock_regions_adjacent rgn rgn.cnt (rgn.cnt + 1) ≠ 0) := by
    rw [hcnt]
    exact fun hboth => hboth.2 hadj
  have hrounds : (toInt32 rgn.last + 1).toNat = 0 := by
    unfold Region.last
    rw [hcnt]
    decide
  refine ⟨insert_sorted rgn base size, ?_, ?_, ?_⟩
  · unfold memblock_add_region
    rw [if_neg (by omega)]
    have hscan : scan rgn base size rgn.cnt 0 = .apart := by
      rw [hcnt]
      rfl
    rw [hscan]
    unfold add_scanned
    rw [if_neg hno]
    show (if rgn.cnt ≥ MAX_MEMBLOCK_REGIONS then some (-1, rgn)
      else some (0, insert_sorted rgn base size)) = _
    rw [if_neg (by rw [hcnt]; decide)]
  · show add32 rgn.cnt 1 = 1
    rw [hcnt]
    decide
  unfold insert_sorted
  simp only [hrounds]
  unfold make_room
  rcases hfirst with hlt | heq
  · rw [if_pos hlt, setRegion_self]
  · rw [if_neg (by rw [heq]; exact lt_irrefl base), heq]

theorem Inv.of_reserve (hinv : Inv rgn A) (hallowed : Allowed rgn (.reserve base size))
    (hstale : StaleHarmless rgn (.reserve base size)) (hret : 0 ≤ ret)
    (hcall : memblock_reserve rgn base size = some (ret, rgn')) :
    Inv rgn' (fun a => A a ∨ Property.Has ⟨base, size⟩ a) := by
  obtain ⟨hsize, hwrap, hfits⟩ := hallowed
  unfold memblock_reserve at hcall
  rw [if_neg (by omega)] at hcall
  rcases hinv with ⟨hsorted, hcov⟩ | ⟨hcnt, hzero, hA⟩
  · by_cases hpos : 0 < rgn.cnt
    · obtain ⟨ret', rgn'', hadd, hspec⟩ := add_region_spec hsorted hpos hsize hwrap hfits
      cases hcall.symm.trans hadd
      obtain ⟨hsorted', _, hcov'⟩ := hspec hret
      left
      refine ⟨hsorted', fun a => ?_⟩
      rw [hcov' a, hcov a]
    have hcnt : rgn.cnt = 0 := by omega
    obtain ⟨hadj, hfirst⟩ := hstale hcnt
    obtain ⟨rgn'', hadd, hcnt', hregion⟩ := add_region_empty hcnt hadj hfirst
    cases hcall.symm.trans hadd
    apply Inv.of_single hsize hwrap hcnt' hregion
    intro a ha
    obtain ⟨i, hi, _⟩ := (hcov a).mpr ha
    omega
  unfold memblock_add_region at hcall
  rw [if_pos ⟨hcnt, hzero⟩] at hcall
  cases hcall
  exact Inv.of_single hsize hwrap hcnt (by simp) hA

theorem Inv.of_free (hinv : Inv rgn A) (hallowed : Allowed rgn (.free base size)) (hret : 0 ≤ ret)
    (hcall : memblock_free rgn base size = some (ret, rgn')) :
    Inv rgn' (fun a => A a ∧ ¬Property.Has ⟨base, size⟩ a) := by
  obtain ⟨i, hi, hpos, hlow, hhigh⟩ := hallowed
  rcases hinv with ⟨hsorted, hcov⟩ | ⟨hcnt, hzero, _⟩
  · obtain ⟨ret', rgn'', hrem, hspec⟩ := remove_spec hsorted hi hlow hhigh
    cases hcall.symm.trans hrem
    obtain ⟨hsorted', hcov'⟩ := hspec hret
    left
    refine ⟨hsorted', fun a => ?_⟩
    rw [hcov' a, hcov a]
  -- The region of size 0 has no part that could be freed.
  have hizero : i = 0 := by omega
  subst hizero
  omega

/-- What one call preserves, it preserves in every run. -/
theorem Inv.of_steps {ls : List Label} (hsteps : (system.restrict StaleHarmless).Steps rgn ls rgn')
    (hinv : Inv rgn A) : Inv rgn' (reserved A ls) := by
  induction hsteps generalizing A with
  | nil rgn => exact hinv
  | @cons _ _ _ l ls hstep _ ih => ?_
  obtain ⟨hstale, hallowed, ret, hret, hcall⟩ := hstep
  cases l with
  | reserve base size => exact ih (hinv.of_reserve hallowed hstale hret hcall)
  | free base size => exact ih (hinv.of_free hallowed hret hcall)

end runs

/-- **The table of reserved regions.** In every run in which the stale slots do
no harm whenever the table is empty, the table covers the reserved
intervals less the freed ones, and its regions are sorted and disjoint. -/
theorem reserved_covered (ls : List Label) (rgn : Region)
    (hsteps : (system.restrict StaleHarmless).Steps memblock_init ls rgn) :
    (∀ a, Covered rgn a ↔ reserved (fun _ => False) ls a) ∧
    ∀ i j, i < j → j < rgn.cnt → (rgn.region i).base < (rgn.region j).base ∧
      ∀ a, ¬((rgn.region i).Has a ∧ (rgn.region j).Has a) := by
  have hinit : Inv memblock_init (fun _ => False) := .inr ⟨rfl, rfl, fun _ h => h⟩
  rcases Inv.of_steps hsteps hinit with ⟨hsorted, hcov⟩ | ⟨hcnt, hzero, hA⟩
  · refine ⟨hcov, ?_⟩
    intro i j hlt hj
    have hgap := hsorted.gap i j hlt hj
    refine ⟨by omega, ?_⟩
    rintro a ⟨hia, hja⟩
    have := hsorted.unique (by omega) hj hia hja
    omega
  refine ⟨?_, fun i j hlt hj => by omega⟩
  intro a
  constructor
  · rintro ⟨i, hi, hhas⟩
    have hizero : i = 0 := by omega
    subst hizero
    unfold Property.Has at hhas
    omega
  intro ha
  exact absurd ha (hA a)

/-- The table after a call that does not fault. -/
def after (rgn : Region) (l : Label) : Region := ((call rgn l).map Prod.snd).getD rgn

theorem step_after {rgn : Region} {l : Label} (hallowed : Allowed rgn l)
    (hret : ((call rgn l).map Prod.fst).any (0 ≤ ·) = true) : system.step rgn l (after rgn l) := by
  unfold after
  cases hcall : call rgn l with
  | none =>
    rw [hcall] at hret
    cases hret
  | some res =>
    rw [hcall] at hret
    exact ⟨hallowed, res.1, of_decide_eq_true hret, hcall⟩

/-- Two regions are joined by a third one, and a part of it is freed again. -/
theorem reserved_covered_joined :
    let ls : List Label := [.reserve 0x1000 0x1000, .reserve 0x3000 0x1000,
      .reserve 0x2000 0x1000, .free 0x1800 0x1000]
    ∀ a, Covered (ls.foldl after memblock_init) a ↔ reserved (fun _ => False) ls a := by
  intro ls
  have hsteps : (system.restrict StaleHarmless).Steps memblock_init ls
      (ls.foldl after memblock_init) := by
    refine .cons ⟨fun h => absurd h (by decide), step_after ⟨by decide, by decide, ?_⟩ ?_⟩
      (.cons ⟨fun h => absurd h (by decide +kernel), step_after ⟨by decide, by decide, ?_⟩ ?_⟩
      (.cons ⟨fun h => absurd h (by decide +kernel), step_after ⟨by decide, by decide, ?_⟩ ?_⟩
      (.cons ⟨trivial, step_after ⟨0, ?_⟩ ?_⟩ (.nil _))))
    · exact .inr (by decide +kernel)
    · decide +kernel
    · exact .inr (by decide +kernel)
    · decide +kernel
    · exact .inr (by decide +kernel)
    · decide +kernel
    · decide +kernel
    · decide +kernel
  exact (reserved_covered ls _ hsteps).1

/-- **A region is lost.** After the only region was freed, a higher one is
reserved: the table then holds the old region again, and not the new one. -/
theorem reserved_lost : ∃ ls rgn, system.Steps memblock_init ls rgn ∧
    ls = [.reserve 0x1000 0x1000, .free 0x1000 0x1000, .reserve 0x2000 0x1000] ∧
    reserved (fun _ => False) ls 0x2000 ∧ ¬Covered rgn 0x2000 ∧
    ¬reserved (fun _ => False) ls 0x1000 ∧ Covered rgn 0x1000 := by
  let ls : List Label := [.reserve 0x1000 0x1000, .free 0x1000 0x1000, .reserve 0x2000 0x1000]
  let rgn := ls.foldl after memblock_init
  have hsteps : system.Steps memblock_init ls rgn := by
    refine .cons (step_after ⟨by decide, by decide, ?_⟩ ?_) (.cons (step_after ⟨0, ?_⟩ ?_)
      (.cons (step_after ⟨by decide, by decide, ?_⟩ ?_) (.nil _)))
    · exact .inr (by decide +kernel)
    · decide +kernel
    · decide +kernel
    · decide +kernel
    · exact .inr (by decide +kernel)
    · decide +kernel
  have hcnt : rgn.cnt = 1 := by decide +kernel
  refine ⟨ls, rgn, hsteps, rfl, ?_, ?_, ?_, ?_⟩
  · exact .inr (by unfold Property.Has; decide)
  · rintro ⟨i, hi, hhas⟩
    have hizero : i = 0 := by omega
    subst hizero
    exact absurd hhas (by unfold Property.Has; decide)
  · rintro (⟨_, hnot⟩ | hhas)
    · exact hnot (by unfold Property.Has; decide)
    · exact absurd hhas (by unfold Property.Has; decide)
  · exact ⟨0, by omega, by unfold Property.Has; decide⟩

end Nubernel.Memblock
