import Nubernel.Framework.System
import Nubernel.Lib.Arena
import Nubernel.Lib.Word
import Nubernel.Rbtree.Tree

/-! # binder: buffers of a process

Model of the allocation of transaction buffers in
`drivers/staging/android/binder.c`. The mapping of a process is cut
into buffers, each with its header in front. All buffers are on the
list `buffers` by address, and each is in one of two trees: the free
ones by size, the allocated ones by address. Pages of the mapping are
present only where a header or an allocated buffer needs them.

Buffers are named by the address of their header. `none` as the result
of a function means that it ran into a `BUG_ON` or freed a page that is
not there. Pointers stay inside the mapping, so only the arithmetic on
sizes that callers pass is written with wrap-around.
-/

namespace Nubernel.Binder

open Arena LTS Rbtree

/-! ## Data -/

/-- `struct binder_buffer`, as far as the allocator uses it. -/
structure Buffer where
  addr : Nat
  free : Bool
  async_transaction : Bool
  data_size : Nat
  offsets_size : Nat
  deriving DecidableEq, Repr

/-- The fields of `struct binder_proc` that belong to the mapping. -/
structure Proc where
  /-- `vma` is not `NULL`. -/
  vma : Bool
  /-- The address of the mapping in the kernel. -/
  buffer : Nat
  buffer_size : Nat
  buffers : List Buffer
  free_buffers : Rbtree.Tree Nat
  allocated_buffers : Rbtree.Tree Nat
  free_async_space : Nat
  /-- `pages[i]` is not `NULL`. -/
  pages : Nat → Bool

/-- `sizeof(struct binder_buffer)`; the data follows the header. -/
def HEADER : Nat := 40

/-- `ALIGN(size, sizeof(void *))`. -/
def ALIGN (size : Nat) : Nat := add32 size 3 / 4 * 4

/-- `addr & PAGE_MASK`. -/
def page_start (addr : Nat) : Nat := addr / PAGE_SIZE * PAGE_SIZE

/-- The end of the mapping. -/
def Proc.stop (p : Proc) : Nat := p.buffer + p.buffer_size

/-- Where the first buffer of a part of the list starts, or what follows it. -/
def next_start (bs : List Buffer) (stop : Nat) : Nat :=
  match bs with
  | [] => stop
  | b :: _ => b.addr

/-- `binder_buffer_size` by a walk over the list. -/
def buffer_size_in (stop : Nat) : List Buffer → Nat → Nat
  | [], _ => 0
  | b :: bs, addr =>
    if b.addr = addr then next_start bs stop - (addr + HEADER) else buffer_size_in stop bs addr

def binder_buffer_size (p : Proc) (addr : Nat) : Nat := buffer_size_in p.stop p.buffers addr

def is_free (p : Proc) (addr : Nat) : Bool :=
  (at? Buffer.addr p.buffers addr).any Buffer.free

/-- The room that the two parts of a transaction take. -/
def payload (data_size offsets_size : Nat) : Nat := add32 (ALIGN data_size) (ALIGN offsets_size)

/-! ## The trees -/

def binder_insert_free_buffer (p : Proc) (addr : Nat) : Option Proc :=
  let size := binder_buffer_size p addr
  let go_left := fun b => decide (size < binder_buffer_size p b)
  -- `BUG_ON(!new_buffer->free)` and, on the way down, `BUG_ON(!buffer->free)`.
  if is_free p addr && (visited go_left p.free_buffers).all (is_free p) then
    some { p with free_buffers := rb_insert go_left addr p.free_buffers }
  else none

def binder_insert_allocated_buffer (p : Proc) (addr : Nat) : Option Proc :=
  let go_left := fun b => decide (addr < b)
  -- `BUG_ON(new_buffer->free)`, `BUG_ON(buffer->free)`, and `BUG()` for the same address.
  if !is_free p addr &&
      (visited go_left p.allocated_buffers).all (fun b => !is_free p b && decide (b ≠ addr)) then
    some { p with allocated_buffers := rb_insert go_left addr p.allocated_buffers }
  else none

/-- The search loop of `binder_alloc_buf`: the best fit, and whether the loop
ended at a buffer of that very size. -/
def best_fit (p : Proc) (size : Nat) : Rbtree.Tree Nat → Option Nat → Option (Option Nat × Bool)
  | .leaf, best => some (best, false)
  | .node _ l b r, best =>
    -- `BUG_ON(!buffer->free)`.
    if !is_free p b then none
    else if size < binder_buffer_size p b then best_fit p size l (some b)
    else if size > binder_buffer_size p b then best_fit p size r best
    else some (some b, true)

/-! ## Pages -/

def set_page (pages : Nat → Bool) (i : Nat) (present : Bool) : Nat → Bool :=
  fun j => if j = i then present else pages j

/-- The loop behind `free_range`: `n` pages from `first` on, the last one
first. -/
def free_pages (first : Nat) : Nat → (Nat → Bool) → Option (Nat → Bool)
  | 0, pages => some pages
  | n + 1, pages =>
    if pages (first + n) then free_pages first n (set_page pages (first + n) false) else none

/-- What can fail when a page is added. -/
inductive Fault where
  | alloc_page | map_vm_area | vm_insert_page
  deriving DecidableEq, Repr

/-- The allocating loop: `done` pages from `first` on are there. The error
path enters the loop that frees them at the page that failed. -/
def alloc_pages (fault : Nat → Option Fault) (first : Nat) :
    Nat → Nat → (Nat → Bool) → Option ((Nat → Bool) × Bool)
  | _, 0, pages => some (pages, true)
  | done, todo + 1, pages =>
    -- `BUG_ON(*page)`.
    if pages (first + done) then none
    else
      match fault (first + done) with
      | none => alloc_pages fault first (done + 1) todo (set_page pages (first + done) true)
      -- There is no page to be freed for this address.
      | some .alloc_page => (free_pages first done pages).map (·, false)
      | some .map_vm_area | some .vm_insert_page =>
        (free_pages first (done + 1) (set_page pages (first + done) true)).map (·, false)

/-- `binder_update_page_range` on `[start, stop)`, which are page boundaries,
with `true` for the result 0. `vma` tells whether there is a user
mapping to insert pages into. -/
def binder_update_page_range (p : Proc) (allocate : Bool) (start stop : Nat) (vma : Bool)
    (fault : Nat → Option Fault) : Option (Proc × Bool) :=
  let first := (start - p.buffer) / PAGE_SIZE
  let count := (stop - start) / PAGE_SIZE
  -- `if (end <= start) return 0;`
  if stop ≤ start then some (p, true)
  else if allocate then
    if vma then
      (alloc_pages fault first 0 count p.pages).map fun r => ({ p with pages := r.1 }, r.2)
    else some (p, false)
  -- `free_range` ends in the error path of the allocation, hence the result.
  else (free_pages first count p.pages).map fun pages => ({ p with pages := pages }, false)

/-- Freeing a range of pages. -/
def free_page_range (p : Proc) (start stop : Nat) : Option Proc :=
  (binder_update_page_range p false start stop p.vma fun _ => none).map Prod.fst

/-! ## Allocating a buffer -/

/-- `list_add(&new_buffer->entry, &buffer->entry)`. -/
def insert_after (addr : Nat) (new_buffer : Buffer) : List Buffer → List Buffer
  | [] => []
  | b :: bs =>
    if b.addr = addr then b :: new_buffer :: bs else b :: insert_after addr new_buffer bs

/-- What a call of `binder_alloc_buf` meets: whether `get_task_mm` finds the
memory of the process, which pages cannot be added, and what is in
memory where a new header is put. -/
structure Env where
  mm : Bool
  fault : Nat → Option Fault
  stale : Buffer

/-- The part of `binder_alloc_buf` behind the allocation of pages;
`buffer_size` is what it takes off the free buffer. -/
def take_buffer (p : Proc) (addr size buffer_size data_size offsets_size : Nat) (is_async : Bool)
    (stale : Buffer) : Option Proc := do
  -- The buffer goes from one tree to the other before anything else is known
  -- about it.
  let p := { p with
    free_buffers := rb_erase addr p.free_buffers
    buffers := modify Buffer.addr addr (fun b => { b with free := false }) p.buffers }
  let p ← binder_insert_allocated_buffer p addr
  let new_buffer := { stale with addr := addr + HEADER + size, free := true }
  let p ←
    -- What is left of the free buffer gets a header of its own.
    if buffer_size ≠ size then
      binder_insert_free_buffer { p with buffers := insert_after addr new_buffer p.buffers }
        new_buffer.addr
    else some p
  some { p with
    buffers := modify Buffer.addr addr (fun b => { b with
      data_size := data_size, offsets_size := offsets_size,
      async_transaction := is_async }) p.buffers
    free_async_space :=
      if is_async then sub32 p.free_async_space (add32 size HEADER) else p.free_async_space }

/-- `binder_alloc_buf`; the second component is the buffer or `NULL`. -/
def binder_alloc_buf (p : Proc) (data_size offsets_size : Nat) (is_async : Bool) (env : Env) :
    Option (Proc × Option Nat) :=
  let size := payload data_size offsets_size
  -- All of these return `NULL`: no mapping, a size that wraps, too much asynchronous data.
  if !p.vma then some (p, none)
  else if size < data_size ∨ size < offsets_size then some (p, none)
  else if is_async ∧ p.free_async_space < add32 size HEADER then some (p, none)
  else
    match best_fit p size p.free_buffers none with
    | none => none
    | some (none, _) => some (p, none)
    | some (some addr, exact) =>
      let data := addr + HEADER
      -- From here on the next buffer has its pages.
      let has_page_addr := page_start (data + binder_buffer_size p addr)
      let buffer_size :=
        if exact then binder_buffer_size p addr
        -- No room for another header and payload behind it.
        else if add32 (add32 size HEADER) 4 ≥ binder_buffer_size p addr then size
        else add32 size HEADER
      let end_page_addr := min (PAGE_ALIGN (data + buffer_size)) has_page_addr
      match binder_update_page_range p true (PAGE_ALIGN data) end_page_addr (env.mm && p.vma)
          env.fault with
      | none => none
      | some (p, false) => some (p, none)
      | some (p, true) =>
        (take_buffer p addr size buffer_size data_size offsets_size is_async env.stale).map
          (·, some addr)

/-! ## Freeing a buffer -/

def next_of (addr : Nat) : List Buffer → Option Buffer
  | b :: c :: bs => if b.addr = addr then some c else next_of addr (c :: bs)
  | _ => none

def prev_of (addr : Nat) : List Buffer → Option Buffer
  | b :: c :: bs => if c.addr = addr then some b else prev_of addr (c :: bs)
  | _ => none

def buffer_start_page (addr : Nat) : Nat := page_start addr

def buffer_end_page (addr : Nat) : Nat := page_start (addr + HEADER - 1)

/-- The header at `addr` is dropped, and its
pages are freed unless the header before or behind it needs them. -/
def binder_delete_free_buffer (p : Proc) (addr : Nat) : Option Proc :=
  match prev_of addr p.buffers with
  | none => none
  | some prev =>
    -- `BUG_ON(!prev->free)`.
    if !prev.free then none
    else
      -- The header of the previous buffer ends on the page on which this one starts.
      let shares_start := decide (buffer_end_page prev.addr = buffer_start_page addr)
      let free_page_start := !shares_start
      let free_page_end := !(shares_start && decide (buffer_end_page prev.addr = buffer_end_page addr))
      let next := next_of addr p.buffers
      -- The header of the next buffer starts on the page on which this one ends.
      let shares_end := next.any fun b => decide (buffer_start_page b.addr = buffer_end_page addr)
      let free_page_start := free_page_start &&
        !(shares_end && next.any fun b => decide (buffer_start_page b.addr = buffer_start_page addr))
      let free_page_end := free_page_end && !shares_end
      let p := { p with buffers := free Buffer.addr addr p.buffers }
      if free_page_start || free_page_end then
        free_page_range p
          (if free_page_start then buffer_start_page addr else buffer_end_page addr)
          ((if free_page_end then buffer_end_page addr else buffer_start_page addr) + PAGE_SIZE)
      else some p

/-- Merge a free buffer with the one behind it. -/
def merge_next (p : Proc) (addr : Nat) : Option Proc :=
  match next_of addr p.buffers with
  | none => some p
  | some next =>
    if next.free then
      binder_delete_free_buffer { p with free_buffers := rb_erase next.addr p.free_buffers } next.addr
    else some p

/-- Merge it with the one before it, and put the result into the tree. -/
def merge_prev (p : Proc) (addr : Nat) : Option Proc :=
  match prev_of addr p.buffers with
  | none => binder_insert_free_buffer p addr
  | some prev =>
    if prev.free then do
      let p ← binder_delete_free_buffer p addr
      binder_insert_free_buffer { p with free_buffers := rb_erase prev.addr p.free_buffers } prev.addr
    else binder_insert_free_buffer p addr

/-- `binder_free_buf`. The `BUG_ON` on `buffer->transaction` is not here: its callers set
the field to `NULL` before, and it says nothing about the allocator. -/
def binder_free_buf (p : Proc) (addr : Nat) : Option Proc :=
  match at? Buffer.addr p.buffers addr with
  | none => none
  | some buffer =>
    let buffer_size := binder_buffer_size p addr
    let size := payload buffer.data_size buffer.offsets_size
    -- The other `BUG_ON`s on the buffer that is to be freed.
    if buffer.free ∨ size > buffer_size ∨ addr < p.buffer ∨ addr > p.stop then none
    else do
      let p := { p with
        free_async_space :=
          if buffer.async_transaction then add32 p.free_async_space (add32 size HEADER)
          else p.free_async_space }
      let p ← free_page_range p (PAGE_ALIGN (addr + HEADER)) (page_start (addr + HEADER + buffer_size))
      let p := { p with
        allocated_buffers := rb_erase addr p.allocated_buffers
        buffers := modify Buffer.addr addr (fun b => { b with free := true }) p.buffers }
      -- The buffer behind first, so that the one before can take up both.
      let p ← merge_next p addr
      merge_prev p addr

/-! ## The mapping as a transition system -/

def SZ_4M : Nat := 0x400000

/-- `binder_mmap` of `[vm_start, vm_end)`, where `area` is the kernel address
space that `get_vm_area` found. The checks of the flags of the mapping
and of an earlier one are left out. -/
def binder_mmap (vm_start vm_end : Nat) (area : Option Nat) (kzalloc_ok : Bool)
    (fault : Nat → Option Fault) : Option (Except Errno Proc) :=
  let buffer_size := min (vm_end - vm_start) SZ_4M
  match area with
  | none => some (.error .ENOMEM)
  | some addr =>
    if !kzalloc_ok then some (.error .ENOMEM)
    else
      let p : Proc := ⟨false, addr, buffer_size, [], .leaf, .leaf, 0, fun _ => false⟩
      match binder_update_page_range p true addr (addr + PAGE_SIZE) true fault with
      | none => none
      | some (_, false) => some (.error .ENOMEM)
      | some (p, true) =>
        -- the first page is zeroed
        (binder_insert_free_buffer { p with buffers := [⟨addr, true, false, 0, 0⟩] } addr).map
          fun p => .ok { p with free_async_space := buffer_size / 2, vma := true }

/-- What `mmap` and `get_vm_area` give: page aligned addresses, and behind
the area a guard page. -/
structure MapArgs where
  vm_start : Nat
  vm_end : Nat
  area : Nat
  start : PAGE_SIZE ∣ vm_start
  stop : PAGE_SIZE ∣ vm_end
  lt : vm_start < vm_end
  aligned : PAGE_SIZE ∣ area
  pos : 0 < area
  guard : area + min (vm_end - vm_start) SZ_4M + PAGE_SIZE ≤ 2 ^ 32

inductive AllocLabel where
  | binder_alloc_buf (data_size offsets_size : UInt32) (is_async : Bool) (env : Env)
  | binder_free_buf (addr : Nat)
  | binder_vma_close

/-- A buffer that is on the list and not free. -/
def is_allocated (p : Proc) (addr : Nat) : Bool :=
  (at? Buffer.addr p.buffers addr).any fun b => !b.free

def alloc_step (p : Proc) : AllocLabel → Option Proc
  | .binder_alloc_buf data_size offsets_size is_async env =>
    (binder_alloc_buf p data_size.toNat offsets_size.toNat is_async env).map Prod.fst
  | .binder_free_buf addr => if is_allocated p addr then binder_free_buf p addr else none
  | .binder_vma_close => some { p with vma := false }

/-- The mapping of a process, from `binder_mmap` on. -/
def mapping : System Proc AllocLabel :=
  .ofFun (fun p => ∃ (args : MapArgs) (fault : Nat → Option Fault),
    binder_mmap args.vm_start args.vm_end (some args.area) true fault = some (.ok p)) alloc_step

end Nubernel.Binder
