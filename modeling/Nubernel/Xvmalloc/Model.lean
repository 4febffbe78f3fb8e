import Nubernel.Lib.Word
import Nubernel.Framework.System

/-! # xvmalloc: the allocator

Model of `drivers/staging/ramzswap/xvmalloc.c` (pages of 4096 bytes, 32-bit
`unsigned long`). A pool hands out parts of pages. Each page is divided into
blocks with a header of four bytes; the blocks that are free and large enough
are kept in lists by their size, linked through their own memory, and two
levels of bitmaps say which lists are not empty.

The memory is modelled word by word: a header is one word, the links of a
free block are the next three. A page is named by the pointer to its
`struct page`; 0 is NULL. `pages` are the pages that `alloc_page` has handed
to the pool and `__free_page` has not taken back. The lock is left out:
each function runs by itself.
-/

open Function

namespace Nubernel.Xvmalloc

/-! ## Data -/

def XV_ALIGN : Nat := 4
def XV_MIN_ALLOC_SIZE : Nat := 32
def XV_MAX_ALLOC_SIZE : Nat := PAGE_SIZE - XV_ALIGN
def FL_DELTA_SHIFT : Nat := 3
def FL_DELTA : Nat := 8
def NUM_FREE_LISTS : Nat := (XV_MAX_ALLOC_SIZE - XV_MIN_ALLOC_SIZE) / FL_DELTA + 1
def BITS_PER_LONG : Nat := 32
def FLAGS_MASK : Nat := 3
def PREV_MASK : Nat := 0xFFFC

def ENOMEM : Int := 12
/-- `GFP_ATOMIC & ~__GFP_HIGH`. -/
def GFP_NOWAIT : Nat := 0

/-- `ALIGN(x, a)`. -/
def ALIGN (x a : Nat) : Nat := (x + (a - 1)) / a * a

inductive Blockflags where
  | BLOCK_FREE
  | PREV_FREE
deriving DecidableEq

def Blockflags.bit : Blockflags → Nat
  | .BLOCK_FREE => 0
  | .PREV_FREE => 1

/-- The word at each page and word index. -/
abbrev Mem := Nat → Nat → Nat

/-- A page and an offset in it. -/
abbrev Addr := Nat × Nat

def Mem.word (mem : Mem) (b : Addr) (k : Nat) : Nat := mem b.1 (b.2 / 4 + k)

def Mem.setWord (mem : Mem) (b : Addr) (k v : Nat) : Mem :=
  update mem b.1 (update (mem b.1) (b.2 / 4 + k) v)

/-! Two `u16` in a word. -/

def low (w : Nat) : Nat := w % 2 ^ 16
def high (w : Nat) : Nat := w / 2 ^ 16 % 2 ^ 16
def withLow (w v : Nat) : Nat := high w * 2 ^ 16 + v % 2 ^ 16
def withHigh (w v : Nat) : Nat := v % 2 ^ 16 * 2 ^ 16 + low w

/-! `struct block_header` -/

def size (mem : Mem) (b : Addr) : Nat := low (mem.word b 0)
def prev (mem : Mem) (b : Addr) : Nat := high (mem.word b 0)
def prev_page (mem : Mem) (b : Addr) : Nat := mem.word b 1
def next_page (mem : Mem) (b : Addr) : Nat := mem.word b 2
def prev_offset (mem : Mem) (b : Addr) : Nat := low (mem.word b 3)
def next_offset (mem : Mem) (b : Addr) : Nat := high (mem.word b 3)

def set_size (mem : Mem) (b : Addr) (v : Nat) : Mem := mem.setWord b 0 (withLow (mem.word b 0) v)
def set_prev (mem : Mem) (b : Addr) (v : Nat) : Mem := mem.setWord b 0 (withHigh (mem.word b 0) v)
def set_prev_page (mem : Mem) (b : Addr) (v : Nat) : Mem := mem.setWord b 1 v
def set_next_page (mem : Mem) (b : Addr) (v : Nat) : Mem := mem.setWord b 2 v
def set_prev_offset (mem : Mem) (b : Addr) (v : Nat) : Mem :=
  mem.setWord b 3 (withLow (mem.word b 3) v)
def set_next_offset (mem : Mem) (b : Addr) (v : Nat) : Mem :=
  mem.setWord b 3 (withHigh (mem.word b 3) v)

/-- `struct xv_pool`. -/
structure Pool where
  flbitmap : BitVec 32
  slbitmap : Nat → BitVec 32
  freelist : Nat → Addr
  total_pages : Nat

structure State where
  pool : Pool
  mem : Mem
  pages : List Nat

def xv_create_pool (mem : Mem) : State where
  pool := { flbitmap := 0#32, slbitmap := fun _ => 0#32, freelist := fun _ => (0, 0),
            total_pages := 0 }
  mem := mem
  pages := []

/-! ## Headers -/

def test_flag (mem : Mem) (block : Addr) (flag : Blockflags) : Bool :=
  (prev mem block).testBit flag.bit

def set_flag (mem : Mem) (block : Addr) (flag : Blockflags) : Mem :=
  set_prev mem block (prev mem block ||| 2 ^ flag.bit)

def clear_flag (mem : Mem) (block : Addr) (flag : Blockflags) : Mem :=
  set_prev mem block (prev mem block &&& (2 ^ 16 - 1 - 2 ^ flag.bit))

def get_blockprev (mem : Mem) (block : Addr) : Nat := prev mem block &&& PREV_MASK

def set_blockprev (mem : Mem) (block : Addr) (new_offset : Nat) : Mem :=
  set_prev mem block (new_offset ||| (prev mem block &&& FLAGS_MASK))

def BLOCK_NEXT (mem : Mem) (block : Addr) : Addr := (block.1, block.2 + size mem block + XV_ALIGN)

/-! ## Free lists -/

def get_index_for_insert (size : Nat) : Nat :=
  let size := if size > XV_MAX_ALLOC_SIZE then XV_MAX_ALLOC_SIZE else size
  -- `size &= ~FL_DELTA_MASK`.
  let size := size / FL_DELTA * FL_DELTA
  sub32 size XV_MIN_ALLOC_SIZE >>> FL_DELTA_SHIFT

def get_index (size : Nat) : Nat :=
  let size := if size < XV_MIN_ALLOC_SIZE then XV_MIN_ALLOC_SIZE else size
  let size := ALIGN size FL_DELTA
  sub32 size XV_MIN_ALLOC_SIZE >>> FL_DELTA_SHIFT

/-- `__ffs`: the number of the lowest bit that is set. -/
def ffs (w : BitVec 32) : Nat := ((List.range 32).find? fun i => w.getLsbD i).getD 0

/-- The index of the list in which a block was found, and the block; the page is 0
if there is none. -/
def find_block (pool : Pool) (size : Nat) : Nat × Addr :=
  if pool.flbitmap = 0#32 then (0, 0, 0)
  else
    let slindex := get_index size
    let slbitmap := pool.slbitmap (slindex / BITS_PER_LONG)
    let slbitstart := slindex % BITS_PER_LONG
    if slbitmap.getLsbD slbitstart then (slindex, pool.freelist slindex)
    else
      let slbitstart := slbitstart + 1
      let slbitmap := slbitmap >>> slbitstart
      if slbitstart ≠ BITS_PER_LONG ∧ slbitmap ≠ 0#32 then
        let slindex := slindex + ffs slbitmap + 1
        (slindex, pool.freelist slindex)
      else
        let flindex := slindex / BITS_PER_LONG
        let flbitmap := pool.flbitmap >>> (flindex + 1)
        if flbitmap = 0#32 then (0, 0, 0)
        else
          let flindex := flindex + ffs flbitmap + 1
          let slindex := flindex * BITS_PER_LONG + ffs (pool.slbitmap flindex)
          (slindex, pool.freelist slindex)

def set_bit (w : BitVec 32) (i : Nat) : BitVec 32 := w ||| 1#32 <<< i
def clear_bit (w : BitVec 32) (i : Nat) : BitVec 32 := w &&& ~~~(1#32 <<< i)

def insert_block (s : State) (page offset : Nat) (block : Addr) : State :=
  let slindex := get_index_for_insert (size s.mem block)
  let flindex := slindex / BITS_PER_LONG
  let mem := set_prev_page s.mem block 0
  let mem := set_prev_offset mem block 0
  let mem := set_next_page mem block (s.pool.freelist slindex).1
  let mem := set_next_offset mem block (s.pool.freelist slindex).2
  let freelist := update s.pool.freelist slindex (page, offset)
  let mem :=
    if next_page mem block ≠ 0 then
      let nextblock := (next_page mem block, next_offset mem block)
      let mem := set_prev_page mem nextblock page
      set_prev_offset mem nextblock offset
    else mem
  { s with
    mem := mem
    pool := { s.pool with
      freelist := freelist
      slbitmap := update s.pool.slbitmap flindex
        (set_bit (s.pool.slbitmap flindex) (slindex % BITS_PER_LONG))
      flbitmap := set_bit s.pool.flbitmap flindex } }

/-- The bits for a list that has become empty. -/
def clear_bits (pool : Pool) (slindex : Nat) : Pool :=
  let flindex := slindex / BITS_PER_LONG
  let word := clear_bit (pool.slbitmap flindex) (slindex % BITS_PER_LONG)
  { pool with
    slbitmap := update pool.slbitmap flindex word
    flbitmap := if word = 0#32 then clear_bit pool.flbitmap flindex else pool.flbitmap }

def remove_block_head (s : State) (block : Addr) (slindex : Nat) : State :=
  let entry := (next_page s.mem block, next_offset s.mem block)
  let pool := { s.pool with freelist := update s.pool.freelist slindex entry }
  let mem := set_prev_page s.mem block 0
  let mem := set_prev_offset mem block 0
  if entry.1 = 0 then { s with pool := clear_bits pool slindex, mem := mem }
  else
    let mem := set_prev_page mem entry 0
    { s with pool := pool, mem := set_prev_offset mem entry 0 }

/-- The neighbours of a block in its list are linked to each other. -/
def unlink_block (mem : Mem) (block : Addr) : Mem :=
  let mem :=
    if prev_page mem block ≠ 0 then
      let tmpblock := (prev_page mem block, prev_offset mem block)
      let mem := set_next_page mem tmpblock (next_page mem block)
      set_next_offset mem tmpblock (next_offset mem block)
    else mem
  if next_page mem block ≠ 0 then
    let tmpblock := (next_page mem block, next_offset mem block)
    let mem := set_prev_page mem tmpblock (prev_page mem block)
    set_prev_offset mem tmpblock (prev_offset mem block)
  else mem

def remove_block (s : State) (page offset : Nat) (block : Addr) (slindex : Nat) : State :=
  if s.pool.freelist slindex = (page, offset) then remove_block_head s block slindex
  else { s with mem := unlink_block s.mem block }

/-! ## Allocating and freeing -/

/-- What `alloc_page` returns: nothing, or a page with what happens to be in it. -/
abbrev PageAlloc := Option (Nat × (Nat → Nat))

def grow_pool (s : State) (alloc_page : PageAlloc) : Int × State :=
  match alloc_page with
  | none => (-ENOMEM, s)
  | some (page, content) =>
    let block := (page, 0)
    let pool := { s.pool with total_pages := add64 s.pool.total_pages 1 }
    let mem := update s.mem page content
    let mem := set_size mem block (PAGE_SIZE - XV_ALIGN)
    let mem := set_flag mem block .BLOCK_FREE
    let mem := clear_flag mem block .PREV_FREE
    let mem := set_blockprev mem block 0
    (0, insert_block { pool := pool, mem := mem, pages := page :: s.pages } page 0 block)

/-- The rest of a block beyond the part that is handed out becomes a block of its
own. -/
def split_block (s : State) (page offset size : Nat) : State :=
  let block := (page, offset)
  let tmpoffset := offset + size + XV_ALIGN
  let tmpsize := sub32 (Xvmalloc.size s.mem block) size
  let tmpblock := (page, tmpoffset)
  if tmpsize ≠ 0 then
    let mem := set_size s.mem tmpblock (sub32 tmpsize XV_ALIGN)
    let mem := set_flag mem tmpblock .BLOCK_FREE
    let mem := clear_flag mem tmpblock .PREV_FREE
    let mem := set_blockprev mem tmpblock offset
    let s := { s with mem := mem }
    let s :=
      if Xvmalloc.size s.mem tmpblock ≥ XV_MIN_ALLOC_SIZE then insert_block s page tmpoffset tmpblock
      else s
    if tmpoffset + XV_ALIGN + Xvmalloc.size s.mem tmpblock ≠ PAGE_SIZE then
      { s with mem := set_blockprev s.mem (BLOCK_NEXT s.mem tmpblock) tmpoffset }
    else s
  -- An exact fit.
  else if tmpoffset ≠ PAGE_SIZE then { s with mem := clear_flag s.mem tmpblock .PREV_FREE }
  else s

/-- The block is handed out. -/
def mark_used (s : State) (block : Addr) (origsize : Nat) : State :=
  let mem := set_size s.mem block origsize
  { s with mem := clear_flag mem block .BLOCK_FREE }

/-- The part of `xv_malloc` after a block has been found. -/
def take_block (s : State) (index : Nat) (block : Addr) (origsize : Nat) : State :=
  let s := remove_block_head s block index
  let s := split_block s block.1 block.2 (ALIGN origsize XV_ALIGN)
  mark_used s block origsize

/-- The error, the object and the state after the call. -/
def xv_malloc (s : State) (size flags : Nat) (alloc_page : PageAlloc) : Int × Addr × State :=
  if size = 0 ∨ size > XV_MAX_ALLOC_SIZE then (-ENOMEM, (0, 0), s)
  else
    let (index, block) := find_block s.pool (ALIGN size XV_ALIGN)
    if block.1 ≠ 0 then (0, (block.1, block.2 + XV_ALIGN), take_block s index block size)
    else if flags &&& GFP_NOWAIT ≠ 0 then (-ENOMEM, (0, 0), s)
    else
      let (error, s) := grow_pool s alloc_page
      if error ≠ 0 then (error, (0, 0), s)
      else
        let (index, block) := find_block s.pool (ALIGN size XV_ALIGN)
        if block.1 ≠ 0 then (0, (block.1, block.2 + XV_ALIGN), take_block s index block size)
        else (-ENOMEM, (0, 0), s)

/-- "Merge next block if its free". -/
def merge_next (s : State) (page offset : Nat) : State :=
  let block := (page, offset)
  let tmpblock := BLOCK_NEXT s.mem block
  if offset + size s.mem block + XV_ALIGN = PAGE_SIZE then s
  else if test_flag s.mem tmpblock .BLOCK_FREE then
    let s :=
      if size s.mem tmpblock ≥ XV_MIN_ALLOC_SIZE then
        remove_block s page (offset + size s.mem block + XV_ALIGN) tmpblock
          (get_index_for_insert (size s.mem tmpblock))
      else s
    { s with mem := set_size s.mem block (size s.mem block + (size s.mem tmpblock + XV_ALIGN)) }
  else s

/-- "Merge previous block if its free"; the block is then the previous one. -/
def merge_prev (s : State) (page offset : Nat) : State × Addr × Nat :=
  let block := (page, offset)
  if test_flag s.mem block .PREV_FREE then
    let tmpblock := (page, get_blockprev s.mem block)
    let offset := sub32 (sub32 offset (size s.mem tmpblock)) XV_ALIGN
    let s :=
      if size s.mem tmpblock ≥ XV_MIN_ALLOC_SIZE then
        remove_block s page offset tmpblock (get_index_for_insert (size s.mem tmpblock))
      else s
    ({ s with
      mem := set_size s.mem tmpblock (size s.mem tmpblock + (size s.mem block + XV_ALIGN)) },
      tmpblock, offset)
  else (s, block, offset)

/-- The end of `xv_free`: the page is given back, or the block is free. -/
def put_block (s : State) (page : Nat) (block : Addr) (offset : Nat) : State :=
  if size s.mem block = PAGE_SIZE - XV_ALIGN then
    { s with
      pages := s.pages.erase page
      pool := { s.pool with total_pages := sub64 s.pool.total_pages 1 } }
  else
    let s := { s with mem := set_flag s.mem block .BLOCK_FREE }
    let s := if size s.mem block ≥ XV_MIN_ALLOC_SIZE then insert_block s page offset block else s
    if offset + size s.mem block + XV_ALIGN ≠ PAGE_SIZE then
      let tmpblock := BLOCK_NEXT s.mem block
      let mem := set_flag s.mem tmpblock .PREV_FREE
      { s with mem := set_blockprev mem tmpblock offset }
    else s

/-- `none` if the `BUG_ON` fires. -/
def xv_free (s : State) (page offset : Nat) : Option State :=
  let offset := sub32 offset XV_ALIGN
  let block := (page, offset)
  if test_flag s.mem block .BLOCK_FREE then none
  else
    let s := { s with mem := set_size s.mem block (ALIGN (size s.mem block) XV_ALIGN) }
    let s := merge_next s page offset
    let (s, block, offset) := merge_prev s page offset
    some (put_block s page block offset)

end Nubernel.Xvmalloc
