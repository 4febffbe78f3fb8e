import Nubernel.Lib.Word
import Nubernel.Framework.System

/-! # memblock: the table of reserved regions

Model of `mm/memblock.c`: `memblock_reserve` and `memblock_free` keep the
reserved part of memory in a table of regions, sorted by address, of which
the first `cnt` slots are in use. Regions that touch are joined.

The slots behind the first `cnt` keep what was last stored there, and the
functions read them when the table is empty. `cnt` is an `unsigned long`,
a word here, so that `cnt - 1` is the largest word for the empty table; an
access beyond the last slot is a fault, for which the functions return
`none`.
-/

open LTS

namespace Nubernel.Memblock

/-! ## The table -/

def MAX_MEMBLOCK_REGIONS : Nat := 128

/-- `struct memblock_property`. -/
@[ext] structure Property where
  base : Nat
  size : Nat
deriving DecidableEq

/-- `struct memblock_region`: the table has one slot more than may be used. -/
structure Region where
  cnt : Nat
  region : Nat → Property

def setRegion (f : Nat → Property) (i : Nat) (p : Property) : Nat → Property :=
  fun j => if j = i then p else f j

@[simp] theorem setRegion_self (f : Nat → Property) (i : Nat) (p : Property) :
    setRegion f i p i = p := by
  simp [setRegion]

@[simp] theorem setRegion_ne (f : Nat → Property) {i j : Nat} (p : Property) (h : j ≠ i) :
    setRegion f i p j = f j := by
  simp [setRegion, h]

/-- `rgn->cnt - 1`. -/
def Region.last (rgn : Region) : Nat := sub32 rgn.cnt 1

/-! ## The functions of the source -/

def memblock_addrs_adjacent (base1 size1 base2 size2 : Nat) : Int :=
  if base2 = add64 base1 size1 then 1
  else if base1 = add64 base2 size2 then -1
  else 0

def memblock_regions_adjacent (rgn : Region) (r1 r2 : Nat) : Int :=
  memblock_addrs_adjacent (rgn.region r1).base (rgn.region r1).size
    (rgn.region r2).base (rgn.region r2).size

/-- The loop of `memblock_remove_region`: the slots behind `i` move down by one,
up to slot `last`. -/
def shift_down : Nat → (Nat → Property) → Nat → Nat → Option (Nat → Property)
  | 0, _, _, _ => none
  | fuel + 1, region, i, last =>
    if i < last then
      -- Slot `i + 1` is read.
      if i + 1 ≤ MAX_MEMBLOCK_REGIONS then
        shift_down fuel (setRegion region i (region (i + 1))) (i + 1) last
      else
        none
    else
      some region

def memblock_remove_region (rgn : Region) (r : Nat) : Option Region :=
  (shift_down (MAX_MEMBLOCK_REGIONS + 2) rgn.region r rgn.last).map fun region =>
    ⟨rgn.last, region⟩

/-- The regions must be neighbours, `r1` the lower one. -/
def memblock_coalesce_regions (rgn : Region) (r1 r2 : Nat) : Option Region :=
  let size := add64 (rgn.region r1).size (rgn.region r2).size
  memblock_remove_region
    { rgn with region := setRegion rgn.region r1 { rgn.region r1 with size := size } } r2

/-- `memblock_init`, for the reserved regions: one of size 0, all slots being
zero. -/
def memblock_init : Region where
  cnt := 1
  region := fun _ => ⟨0, 0⟩

/-- How the search for a neighbour ends. -/
inductive Scan where
  /-- The region is there already. -/
  | known
  /-- It was joined with that in slot `i`. -/
  | joined (i : Nat) (rgn : Region)
  /-- There is no neighbour; the index is `cnt`. -/
  | apart

/-- The search for a neighbour of the region, from slot `i` on. -/
def scan (rgn : Region) (base size : Nat) : Nat → Nat → Scan
  | 0, _ => .apart
  | fuel + 1, i =>
    let p := rgn.region i
    if p.base = base ∧ p.size = size then
      .known
    else
      let adjacent := memblock_addrs_adjacent base size p.base p.size
      if adjacent > 0 then
        .joined i ⟨rgn.cnt, setRegion rgn.region i ⟨sub64 p.base size, add64 p.size size⟩⟩
      else if adjacent < 0 then
        .joined i ⟨rgn.cnt, setRegion rgn.region i ⟨p.base, add64 p.size size⟩⟩
      else
        scan rgn base size fuel (i + 1)

/-- The loop that makes room for the region, for `i` from `n - 1` down to 0. -/
def make_room (base size : Nat) : Nat → (Nat → Property) → (Nat → Property)
  | 0, region => region
  | i + 1, region =>
    if base < (region i).base then
      make_room base size i (setRegion region (i + 1) (region i))
    else
      setRegion region (i + 1) ⟨base, size⟩

/-- The region is put into the table, which is sorted. -/
def insert_sorted (rgn : Region) (base size : Nat) : Region :=
  -- `i` is signed: the loop is not entered for the empty table.
  let i : Int := toInt32 rgn.last
  let region := make_room base size (i + 1).toNat rgn.region
  let region := if base < (region 0).base then setRegion region 0 ⟨base, size⟩ else region
  ⟨add32 rgn.cnt 1, region⟩

/-- The part of `memblock_add_region` behind the search, which has ended at
`i` and has joined the region with that many others. -/
def add_scanned (rgn : Region) (base size i coalesced : Nat) : Option (Int × Region) := do
  let (rgn, coalesced) ←
    if i < rgn.last ∧ memblock_regions_adjacent rgn i (i + 1) ≠ 0 then
      (memblock_coalesce_regions rgn i (i + 1)).map fun rgn => (rgn, coalesced + 1)
    else
      some (rgn, coalesced)
  if coalesced ≠ 0 then
    some ((coalesced : Int), rgn)
  else if rgn.cnt ≥ MAX_MEMBLOCK_REGIONS then
    some (-1, rgn)
  else
    some (0, insert_sorted rgn base size)

def memblock_add_region (rgn : Region) (base size : Nat) : Option (Int × Region) :=
  if rgn.cnt = 1 ∧ (rgn.region 0).size = 0 then
    -- The region of size 0 from `memblock_init` is replaced.
    some (0, { rgn with region := setRegion rgn.region 0 ⟨base, size⟩ })
  else
    match scan rgn base size rgn.cnt 0 with
    | .known => some (0, rgn)
    | .joined i rgn => add_scanned rgn base size i 1
    | .apart => add_scanned rgn base size rgn.cnt 0

/-- The slot of the region that contains the given one, from slot `i` on. -/
def find_region (rgn : Region) (base stop : Nat) : Nat → Nat → Option Nat
  | 0, _ => none
  | fuel + 1, i =>
    let p := rgn.region i
    if p.base ≤ base ∧ stop ≤ add64 p.base p.size then some i
    else find_region rgn base stop fuel (i + 1)

/-- `__memblock_remove`. -/
def memblock_remove (rgn : Region) (base size : Nat) : Option (Int × Region) :=
  let stop := add64 base size
  match find_region rgn base stop rgn.cnt 0 with
  | none => some (-1, rgn)
  | some i =>
    let p := rgn.region i
    let rgnend := add64 p.base p.size
    if p.base = base ∧ rgnend = stop then
      (memblock_remove_region rgn i).map fun rgn => (0, rgn)
    else if p.base = base then
      some (0, { rgn with region := setRegion rgn.region i ⟨stop, sub64 p.size size⟩ })
    else if rgnend = stop then
      some (0, { rgn with region := setRegion rgn.region i ⟨p.base, sub64 p.size size⟩ })
    else
      -- The entry is split: the part behind the hole is added.
      memblock_add_region
        { rgn with region := setRegion rgn.region i ⟨p.base, sub64 base p.base⟩ }
        stop (sub64 rgnend stop)

def memblock_free (rgn : Region) (base size : Nat) : Option (Int × Region) :=
  memblock_remove rgn base size

def memblock_reserve (rgn : Region) (base size : Nat) : Option (Int × Region) :=
  -- `BUG_ON(0 == size)`.
  if size = 0 then none else memblock_add_region rgn base size

/-! ## Runs -/

inductive Label where
  | reserve (base size : Nat)
  | free (base size : Nat)

def call (rgn : Region) : Label → Option (Int × Region)
  | .reserve base size => memblock_reserve rgn base size
  | .free base size => memblock_free rgn base size

/-- The region is in the table or disjoint from all regions in it. -/
def Fits (rgn : Region) (base size : Nat) : Prop :=
  (∃ i < rgn.cnt, rgn.region i = ⟨base, size⟩) ∨
    ∀ i < rgn.cnt, base + size ≤ (rgn.region i).base ∨
      (rgn.region i).base + (rgn.region i).size ≤ base

/-- What may be called: a region that is reserved is not empty, does not wrap
around and fits into the table; what is freed is part of a region of the
table. -/
def Allowed (rgn : Region) : Label → Prop
  | .reserve base size => 0 < size ∧ base + size < 2 ^ 64 ∧ Fits rgn base size
  | .free base size => ∃ i < rgn.cnt, 0 < (rgn.region i).size ∧ (rgn.region i).base ≤ base ∧
      base + size ≤ (rgn.region i).base + (rgn.region i).size

/-- A call that is allowed and returns no error. -/
def system : System Region Label where
  init := fun rgn => rgn = memblock_init
  step := fun rgn l rgn' => Allowed rgn l ∧ ∃ ret, 0 ≤ ret ∧ call rgn l = some (ret, rgn')

/-- The addresses of a region. -/
def Property.Has (p : Property) (a : Nat) : Prop := p.base ≤ a ∧ a < p.base + p.size

/-- The addresses that the regions of the table cover. -/
def Covered (rgn : Region) (a : Nat) : Prop := ∃ i < rgn.cnt, (rgn.region i).Has a

/-- What the calls have reserved and not freed: the reserved intervals less the
freed ones. -/
def reserved (A : Nat → Prop) : List Label → Nat → Prop
  | [] => A
  | .reserve base size :: ls => reserved (fun a => A a ∨ Property.Has ⟨base, size⟩ a) ls
  | .free base size :: ls => reserved (fun a => A a ∧ ¬Property.Has ⟨base, size⟩ a) ls

end Nubernel.Memblock
