import Nubernel.Framework.System
import Nubernel.Lib.Buddy
import Nubernel.Lib.Word

/-! # pmem: the allocator of a device

Model of `pmem_setup`, `pmem_allocate` and `pmem_free` of
`drivers/misc/pmem.c`. The space of a device is cut into blocks of
`2 ^ order` pages, and `bitmap` has, at the first page of each block,
its order and whether it is allocated. The entries of the other pages
keep whatever order they had when they last were the start of a block.

`pmem_free` may ask for the buddy of a block that would reach over the
end of the space. Reads of `bitmap` behind its end are taken to say
that the page is not free.
-/

namespace Nubernel.Pmem

open LTS

/-! ## Data -/

/-- `struct pmem_bits`; `order` has seven bits. -/
structure PmemBits where
  allocated : Bool
  order : Nat
  deriving DecidableEq, Repr

/-- The fields of `struct pmem_info` that allocation depends on. -/
structure PmemInfo where
  base : Nat
  size : Nat
  num_entries : Nat
  bitmap : Nat → PmemBits
  no_allocator : Bool
  /-- In `no_allocator` mode: the whole space has been given away. -/
  allocated : Bool

def PMEM_MIN_ALLOC : Nat := PAGE_SIZE

def PMEM_MAX_ORDER : Nat := 128

def PMEM_IS_FREE (p : PmemInfo) (index : Nat) : Bool :=
  decide (index < p.num_entries) && !(p.bitmap index).allocated

def PMEM_ORDER (p : PmemInfo) (index : Nat) : Nat := (p.bitmap index).order

def PMEM_BUDDY_INDEX (p : PmemInfo) (index : Nat) : Nat := Buddy.buddy index (PMEM_ORDER p index)

def PMEM_NEXT_INDEX (p : PmemInfo) (index : Nat) : Nat := index + 1 <<< PMEM_ORDER p index

/-- `PMEM_LEN(id, index)`, in bytes. -/
def PMEM_LEN (p : PmemInfo) (index : Nat) : Nat := 1 <<< PMEM_ORDER p index * PMEM_MIN_ALLOC

/-- Write an entry of the bitmap. -/
def set_bits (p : PmemInfo) (index : Nat) (bits : PmemBits) : PmemInfo :=
  { p with bitmap := fun i => if i = index then bits else p.bitmap i }

/-- `PMEM_ORDER(id, index) = order`. -/
def set_order (p : PmemInfo) (index order : Nat) : PmemInfo :=
  set_bits p index { p.bitmap index with order := order % 2 ^ 7 }

/-- `pmem[id].bitmap[index].allocated = allocated`. -/
def set_allocated (p : PmemInfo) (index : Nat) (allocated : Bool) : PmemInfo :=
  set_bits p index { p.bitmap index with allocated := allocated }

/-! ## Setup -/

/-- The loop of `pmem_setup`, for the bits of `num_entries` below `i`. -/
def pmem_setup_loop : Nat → PmemInfo → Nat → PmemInfo
  | 0, p, _ => p
  | i + 1, p, index =>
    -- One block for each bit of the size, the largest first.
    if p.num_entries &&& (1 <<< i) ≠ 0 then
      let p := set_order p index i
      pmem_setup_loop i p (PMEM_NEXT_INDEX p index)
    else pmem_setup_loop i p index

/-- The allocator as `pmem_setup` leaves it. -/
def pmem_setup (base size : UInt32) (no_allocator : Bool) : PmemInfo :=
  let num_entries := size.toNat / PMEM_MIN_ALLOC
  pmem_setup_loop 32
    ⟨base.toNat, size.toNat, num_entries, fun _ => ⟨false, 0⟩, no_allocator, false⟩ 0

/-! ## Allocation -/

/-- The loop ends with `i = 32` when no shift clears `len`. -/
def pmem_order (len : Nat) : Nat :=
  let len := sub32 (add32 len (PMEM_MIN_ALLOC - 1) / PMEM_MIN_ALLOC) 1
  ((List.range 32).find? fun i => decide (len >>> i = 0)).getD 32

/-- The search loop of `pmem_allocate`. `curr` moves on in every round, so
`fuel = num_entries` rounds are enough. -/
def pmem_best_fit (p : PmemInfo) (order : Nat) : Nat → Nat → Option Nat → Option Nat
  | 0, _, best_fit => best_fit
  | fuel + 1, curr, best_fit =>
    if curr < p.num_entries then
      if PMEM_IS_FREE p curr then
        -- An exact fit ends the search.
        if PMEM_ORDER p curr = order then some curr
        else if PMEM_ORDER p curr > order ∧
            (best_fit.all fun best => decide (PMEM_ORDER p curr < PMEM_ORDER p best)) = true then
          pmem_best_fit p order fuel (PMEM_NEXT_INDEX p curr) (some curr)
        else pmem_best_fit p order fuel (PMEM_NEXT_INDEX p curr) best_fit
      else pmem_best_fit p order fuel (PMEM_NEXT_INDEX p curr) best_fit
    else best_fit

/-- The loop of `pmem_allocate` that splits the best fit; its order drops in
every round. -/
def pmem_split (order best_fit : Nat) : Nat → PmemInfo → PmemInfo
  | 0, p => p
  | fuel + 1, p =>
    if PMEM_ORDER p best_fit > order then
      let p := set_order p best_fit (PMEM_ORDER p best_fit - 1)
      -- The order is lowered first, so this is the buddy of a half.
      let buddy := PMEM_BUDDY_INDEX p best_fit
      pmem_split order best_fit fuel (set_order p buddy (PMEM_ORDER p best_fit))
    else p

/-- The index of the block, or `-1`. -/
def pmem_allocate (p : PmemInfo) (len : Nat) : PmemInfo × Int :=
  let order := pmem_order len
  if p.no_allocator then
    -- The index is the length here: there is only one allocation.
    if len > p.size ∨ p.allocated then (p, -1)
    else ({ p with allocated := true }, toInt32 len)
  else if order > PMEM_MAX_ORDER then (p, -1)
  else
    -- the comparisons are made with `(unsigned char)order`
    let order := order % 2 ^ 8
    match pmem_best_fit p order p.num_entries 0 none with
    | none => (p, -1)
    | some best_fit =>
      let p := pmem_split order best_fit (PMEM_ORDER p best_fit) p
      (set_allocated p best_fit true, best_fit)

/-! ## Freeing -/

/-- The merging loop of `pmem_free`. Every round makes one block of two, so
`fuel = num_entries` rounds are enough. -/
def pmem_merge : Nat → PmemInfo → Nat → PmemInfo
  | 0, p, _ => p
  | fuel + 1, p, curr =>
    let buddy := PMEM_BUDDY_INDEX p curr
    -- A buddy of another order is split, and parts of it are in use.
    if PMEM_IS_FREE p buddy ∧ PMEM_ORDER p buddy = PMEM_ORDER p curr then
      let p := set_order p buddy (PMEM_ORDER p buddy + 1)
      let p := set_order p curr (PMEM_ORDER p curr + 1)
      let curr := min buddy curr
      if curr < p.num_entries then pmem_merge fuel p curr else p
    else p

def pmem_free (p : PmemInfo) (index : Nat) : PmemInfo :=
  if p.no_allocator then { p with allocated := false }
  else pmem_merge p.num_entries (set_allocated p index false) index

/-! ### The entries that are read or written -/

/-- In the search; the best fit so far is one of them. -/
def best_fit_entries (p : PmemInfo) (order : Nat) : Nat → Nat → List Nat
  | 0, _ => []
  | fuel + 1, curr =>
    if curr < p.num_entries then
      curr :: if PMEM_IS_FREE p curr ∧ PMEM_ORDER p curr = order then []
        else best_fit_entries p order fuel (PMEM_NEXT_INDEX p curr)
    else []

def split_entries (order best_fit : Nat) : Nat → PmemInfo → List Nat
  | 0, _ => [best_fit]
  | fuel + 1, p =>
    best_fit :: if PMEM_ORDER p best_fit > order then
      let p := set_order p best_fit (PMEM_ORDER p best_fit - 1)
      let buddy := PMEM_BUDDY_INDEX p best_fit
      buddy :: split_entries order best_fit fuel (set_order p buddy (PMEM_ORDER p best_fit))
    else []

def allocate_entries (p : PmemInfo) (len : Nat) : List Nat :=
  let order := pmem_order len
  if p.no_allocator ∨ order > PMEM_MAX_ORDER then []
  else
    let order := order % 2 ^ 8
    best_fit_entries p order p.num_entries 0 ++
      match pmem_best_fit p order p.num_entries 0 none with
      | none => []
      | some best_fit => split_entries order best_fit (PMEM_ORDER p best_fit) p

/-- The buddy is looked at before the `while` of the source tests an index. -/
def merge_entries : Nat → PmemInfo → Nat → List Nat
  | 0, _, _ => []
  | fuel + 1, p, curr =>
    let buddy := PMEM_BUDDY_INDEX p curr
    curr :: buddy ::
      if PMEM_IS_FREE p buddy ∧ PMEM_ORDER p buddy = PMEM_ORDER p curr then
        let p := set_order p buddy (PMEM_ORDER p buddy + 1)
        let p := set_order p curr (PMEM_ORDER p curr + 1)
        let curr := min buddy curr
        if curr < p.num_entries then merge_entries fuel p curr else []
      else []

def free_entries (p : PmemInfo) (index : Nat) : List Nat :=
  if p.no_allocator then []
  else index :: merge_entries p.num_entries (set_allocated p index false) index

/-! ## The allocator of one device as a transition system -/

/-- What walking from `index` with `PMEM_NEXT_INDEX` visits; the tag of a
block is its `allocated` bit. -/
def walk (p : PmemInfo) : Nat → Nat → List (Buddy.Block Bool)
  | 0, _ => []
  | fuel + 1, index =>
    if index < p.num_entries then
      ⟨index, PMEM_ORDER p index, (p.bitmap index).allocated⟩ ::
        walk p fuel (PMEM_NEXT_INDEX p index)
    else []

/-- The blocks of a device. -/
def blocks (p : PmemInfo) : List (Buddy.Block Bool) := walk p p.num_entries 0

/-- A device, with the allocations that have not been freed: the index that
`pmem_allocate` returned and the length it was asked for. -/
structure Device where
  info : PmemInfo
  live : List (Nat × Nat)

inductive AllocLabel where
  | pmem_allocate (len : UInt32)
  | pmem_free (index : Nat)
  deriving DecidableEq, Repr

/-- `pmem_free` is called with the index of an allocation only. -/
def alloc_step (d : Device) : AllocLabel → Option Device
  | .pmem_allocate len =>
    let r := pmem_allocate d.info len.toNat
    some ⟨r.1, if 0 ≤ r.2 then (r.2.toNat, len.toNat) :: d.live else d.live⟩
  | .pmem_free index =>
    if index ∈ d.live.map Prod.fst then
      some ⟨pmem_free d.info index, d.live.filter fun a => decide (a.1 ≠ index)⟩
    else none

/-- A device with an allocator. -/
def allocator (base size : UInt32) : System Device AllocLabel :=
  .ofFun (fun d => d = ⟨pmem_setup base size false, []⟩) alloc_step

end Nubernel.Pmem
