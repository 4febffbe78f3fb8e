import Nubernel.Lib.Bitmap
import Nubernel.Lib.Word

/-! # genalloc

Model of `lib/genalloc.c` and of `bitmap_find_next_zero_area` of `lib/bitmap.c`, for
32-bit words. A pool has chunks of memory, and each chunk a bitmap with one bit for
each granule of `1 << min_alloc_order` bytes.

`int` variables are kept as words too, in two's complement; the comparisons of such
words are those of the signed values. A result `none` means that a `BUG_ON` has been
hit or that memory outside of a bitmap is written to.
-/

namespace Nubernel.Genalloc

open Bitmap

/-! ## Bitmaps -/

/-- A word that is negative as an `int`. -/
def negative (a : Nat) : Bool := decide (2 ^ 31 ≤ a)

/-- `a >= b` for words as `int`s. -/
def int_ge (a b : Nat) : Bool :=
  if negative a = negative b then decide (b ≤ a) else negative b

/-- `__ALIGN_MASK`. -/
def ALIGN_MASK (x mask : Nat) : Nat := add32 x mask &&& (2 ^ 32 - 1 - mask)

def find_next_bit (map : Nat → Bool) (size offset : Nat) : Nat := findNext map size offset

def find_next_zero_bit (map : Nat → Bool) (size offset : Nat) : Nat :=
  findNext (fun k => !map k) size offset

def bitmap_find_next_zero_area (map : Nat → Bool) (size nr align_mask : Nat) :
    Nat → Nat → Option Nat
  | 0, _ => none
  | fuel + 1, start =>
    let index := ALIGN_MASK (find_next_zero_bit map size start) align_mask
    let stop := add32 index nr
    if stop > size then some stop
    else
      let i := find_next_bit map stop index
      if i < stop then bitmap_find_next_zero_area map size nr align_mask fuel (i + 1)
      else some index

def bitmap_set (map : Nat → Bool) (start nr : Nat) : Option (Nat → Bool) :=
  if negative start ∨ negative nr then none else some (fill map start nr true)

/-! ## Pools -/

/-- `struct gen_pool_chunk`. -/
structure Chunk where
  start_addr : Nat
  end_addr : Nat
  bits : Nat → Bool

/-- `struct gen_pool`. -/
structure Pool where
  min_alloc_order : Nat
  chunks : List Chunk

def gen_pool_create (min_alloc_order : Nat) : Pool :=
  { min_alloc_order := min_alloc_order, chunks := [] }

/-- `kmalloc` says whether the chunk can be allocated. -/
def gen_pool_add (pool : Pool) (addr size : Nat) (kmalloc : Bool) : Int × Pool :=
  if kmalloc then
    (0, { pool with
      chunks := { start_addr := addr, end_addr := add32 addr size, bits := fun _ => false } ::
        pool.chunks })
  else (-1, pool)

/-- The number of granules for a number of bytes. -/
def nbits (order size : Nat) : Nat := sub32 (add32 size (2 ^ order)) 1 >>> order

/-- The number of granules of a chunk. -/
def Chunk.end_bit (c : Chunk) (order : Nat) : Nat := sub32 c.end_addr c.start_addr >>> order

/-- The search in one chunk. -/
def Chunk.zero_area (c : Chunk) (order n : Nat) : Option Nat :=
  bitmap_find_next_zero_area c.bits (c.end_bit order) n 0 (c.end_bit order + 2) 0

/-- `n` granules from `start_bit` on are taken. -/
def Chunk.take (c : Chunk) (order n start_bit : Nat) : Option (Nat × Chunk) :=
  (bitmap_set c.bits start_bit n).map fun bits =>
    (add32 c.start_addr (start_bit <<< order), { c with bits := bits })

/-- The loop of `gen_pool_alloc` over the chunks. -/
def alloc_chunks (order n : Nat) : List Chunk → Option (Nat × List Chunk)
  | [] => some (0, [])
  | c :: cs =>
    match c.zero_area order n with
    | none => none
    | some start_bit =>
      if int_ge start_bit (c.end_bit order) then
        (alloc_chunks order n cs).map fun (addr, cs) => (addr, c :: cs)
      else (c.take order n start_bit).map fun (addr, c) => (addr, c :: cs)

def gen_pool_alloc (pool : Pool) (size : Nat) : Option (Nat × Pool) :=
  if size = 0 then some (0, pool)
  else
    (alloc_chunks pool.min_alloc_order (nbits pool.min_alloc_order size) pool.chunks).map
      fun (addr, cs) => (addr, { pool with chunks := cs })

/-- The loop of `gen_pool_free` over the chunks, with the `BUG_ON` after it. -/
def free_chunks (order addr size n : Nat) : List Chunk → Option (List Chunk)
  | [] => if n ≠ 0 ∧ ¬negative n then none else some []
  | c :: cs =>
    if addr ≥ c.start_addr ∧ addr < c.end_addr then
      if add32 addr size > c.end_addr ∨ negative n then none
      else
        let bit := sub32 addr c.start_addr >>> order
        some ({ c with bits := fill c.bits bit n false } :: cs)
    else (free_chunks order addr size n cs).map fun cs => c :: cs

def gen_pool_free (pool : Pool) (addr size : Nat) : Option Pool :=
  (free_chunks pool.min_alloc_order addr size (nbits pool.min_alloc_order size) pool.chunks).map
    fun cs => { pool with chunks := cs }

end Nubernel.Genalloc
