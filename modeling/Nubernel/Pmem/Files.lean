import Nubernel.Lib.Arena
import Nubernel.Pmem.Model

/-! # pmem: files, connections and mappings

Model of the file operations of `drivers/misc/pmem.c`. A file either
allocates a block itself (it is then a master), or is connected to
another file and takes over its index; the master grants it regions of
the block with `PMEM_MAP`.

What the rest of the kernel answers is part of the label of a step: the
address at which a `struct file` is allocated, what `fget_light` finds
at a descriptor, whether memory and page tables can be allocated and
whether the task of a mapping is still there. Each operation is one
step, as the semaphores of the driver have it.
-/

namespace Nubernel.Pmem

open Arena LTS

/-! ## State -/

/-- `struct pmem_region`. -/
structure Region where
  offset : Nat
  len : Nat
  deriving DecidableEq, Repr

/-- `struct pmem_data` with the file it belongs to. The bits of `flags` are
fields of their own. -/
structure PmemData where
  /-- Address of the `struct file`. -/
  file : Nat
  /-- The device, `get_id(file)`. -/
  id : Nat
  index : Int
  /-- `PMEM_FLAGS_CONNECTED`. -/
  connected : Bool
  /-- `PMEM_FLAGS_MASTERMAP`. -/
  mastermap : Bool
  /-- `PMEM_FLAGS_SUBMAP`. -/
  submap : Bool
  /-- `PMEM_FLAGS_UNSUBMAP`. -/
  unsubmap : Bool
  /-- `vma` is not `NULL`. -/
  vma : Bool
  master_file : Option Nat
  region_list : List Region
  /-- Not in the source: numbers the opens, so that a file is told apart
  from a later one at the same address. -/
  serial : Nat
  /-- Not in the source: `index` came from `pmem_allocate` for this file. -/
  owns : Bool
  /-- Not in the source: the serial of the file it was connected to last. -/
  master : Option Nat
  deriving DecidableEq, Repr

structure State where
  pmem : Nat → PmemInfo
  files : List PmemData
  opened : Nat

/-- A range of the physical memory of a device that a step maps. -/
structure Mapping where
  file : Nat
  start : Nat
  len : Nat
  deriving DecidableEq, Repr

def PMEM_IS_PAGE_ALIGNED (addr : Nat) : Bool := addr % PAGE_SIZE == 0

def PMEM_IS_SUBMAP (d : PmemData) : Bool := d.submap && !d.unsubmap

def has_allocation (d : PmemData) : Bool := decide (0 ≤ d.index)

/-- `is_master_owner`, where `master_file` is what the caller has open at
the descriptor `master_fd`. -/
def is_master_owner (d : PmemData) (master_file : Option Nat) : Bool :=
  has_allocation d &&
    (d.mastermap || (master_file.isSome && decide (d.master_file = master_file)))

def pmem_start_addr (p : PmemInfo) (d : PmemData) : Nat :=
  if p.no_allocator then p.base else add32 (d.index.toNat * PMEM_MIN_ALLOC) p.base

def pmem_len (p : PmemInfo) (d : PmemData) : Nat :=
  if p.no_allocator then d.index.toNat else PMEM_LEN p d.index.toNat % 2 ^ 32

/-- Write back the data of a file. -/
def State.store (s : State) (d : PmemData) : State :=
  { s with files := modify PmemData.file d.file (fun _ => d) s.files }

def State.set_pmem (s : State) (id : Nat) (p : PmemInfo) : State :=
  { s with pmem := fun i => if i = id then p else s.pmem i }

/-- What a step returns, the state it leads to, and what it maps. -/
structure Result where
  state : State
  ret : Except Errno Unit
  maps : List Mapping

/-! ## Operations -/

def pmem_open (s : State) (id file : Nat) : Result :=
  ⟨{ s with
      files := ⟨file, id, -1, false, false, false, false, false, none, [], s.opened, false, none⟩ ::
        s.files
      opened := s.opened + 1 }, .ok (), []⟩

/-- `pmem_allocate` on behalf of a file. -/
def allocate_for (s : State) (d : PmemData) (len : Nat) : State × PmemData :=
  let r := pmem_allocate (s.pmem d.id) len
  (s.set_pmem d.id r.1, { d with index := r.2, owns := decide (0 ≤ r.2) })

/-- `PMEM_ALLOCATE`; it does not report that nothing was allocated. -/
def pmem_ioctl_allocate (s : State) (d : PmemData) (len : Nat) : Result :=
  if has_allocation d then ⟨s, .error .EINVAL, []⟩
  else
    let r := allocate_for s d len
    ⟨r.1.store r.2, .ok (), []⟩

/-- The part of `pmem_mmap` behind the allocation. `mapped` regions are
mapped before a page table cannot be allocated; the next one may have
been mapped in part. A file that is not connected maps its block as one
region. -/
def pmem_mmap_alloced (s : State) (d : PmemData) (vma_size : Nat) (garbage_ok : Bool)
    (mapped : Nat) : Result :=
  let p := s.pmem d.id
  if !has_allocation d then ⟨s.store d, .error .EINVAL, []⟩
  else if pmem_len p d < vma_size then ⟨s.store d, .error .EINVAL, []⟩
  else if d.connected then
    -- `pmem_map_garbage` comes first: the regions replace parts of it.
    if !garbage_ok then ⟨s.store d, .error .EAGAIN, []⟩
    else
      let maps := d.region_list.map fun r => ⟨d.file, add32 (pmem_start_addr p d) r.offset, r.len⟩
      -- The kernel takes back what was mapped so far.
      if mapped < d.region_list.length then
        ⟨s.store d, .error .EAGAIN, maps.take (mapped + 1)⟩
      else ⟨s.store { d with submap := true, vma := true }, .ok (), maps⟩
  else
    let maps := [⟨d.file, pmem_start_addr p d, vma_size⟩]
    if mapped = 0 then ⟨s.store d, .error .EAGAIN, maps⟩
    else ⟨s.store { d with mastermap := true }, .ok (), maps⟩

def pmem_mmap (s : State) (d : PmemData) (vm_pgoff vma_size : Nat) (garbage_ok : Bool)
    (mapped : Nat) : Result :=
  -- The checks before the lock is taken.
  if vm_pgoff ≠ 0 ∨ !PMEM_IS_PAGE_ALIGNED vma_size then ⟨s, .error .EINVAL, []⟩
  -- A file can be mapped as a part of another one only once.
  else if d.submap || d.unsubmap then ⟨s, .error .EINVAL, []⟩
  else if d.index = -1 then
    let r := allocate_for s d vma_size
    pmem_mmap_alloced r.1 r.2 vma_size garbage_ok mapped
  else pmem_mmap_alloced s d vma_size garbage_ok mapped

/-- `pmem_connect`, where `src` is what is open at the descriptor: nothing,
or a file, which is a pmem file if it is in `files`. -/
def pmem_connect (s : State) (d : PmemData) (src : Option Nat) : Result :=
  match src.bind (at? PmemData.file s.files) with
  | none => ⟨s, .error .EINVAL, []⟩
  | some src_data =>
    if !has_allocation src_data then ⟨s, .error .EINVAL, []⟩
    -- A file that has memory of its own, or of another master, cannot be connected.
    else if has_allocation d ∧ d.index ≠ src_data.index then ⟨s, .error .EINVAL, []⟩
    else
      ⟨s.store { d with
          index := src_data.index, connected := true, master_file := src,
          master := some src_data.serial },
        .ok (), []⟩

def pmem_vma_close (d : PmemData) : PmemData :=
  if has_allocation d && d.vma then
    { d with vma := false, unsubmap := d.unsubmap || (d.connected && d.submap) }
  else d

/-- What happens to the mapping of a file while the driver takes the locks:
nothing, the task that made it has gone, or it is closed. -/
inductive Locking where
  | held | task_gone | vma_gone
  deriving DecidableEq, Repr

/-- `pmem_lock_data_and_mm`, with `false` for the result -1. -/
def pmem_lock_data_and_mm (d : PmemData) (locking : Locking) : PmemData × Bool :=
  if PMEM_IS_SUBMAP d then
    match locking with
    | .held => (d, true)
    | .task_gone => (d, false)
    | .vma_gone =>
      -- The mapping is closed between `up_read` and `down_write`.
      let d := pmem_vma_close d
      if d.unsubmap then ({ d with submap := false }, false) else (d, true)
  else (d, true)

inductive RemapOp where
  | PMEM_MAP | PMEM_UNMAP
  deriving DecidableEq, Repr

/-- The part of `pmem_remap` under the locks. -/
def pmem_remap_locked (s : State) (d : PmemData) (region : Region) (operation : RemapOp)
    (master_file : Option Nat) (kmalloc_ok remap_ok : Bool) : Result :=
  let p := s.pmem d.id
  if !is_master_owner d master_file then ⟨s.store d, .error .EINVAL, []⟩
  -- The sum may wrap, therefore all three are compared.
  else if region.offset > pmem_len p d ∨ region.len > pmem_len p d ∨
      add32 region.offset region.len > pmem_len p d then ⟨s.store d, .error .EINVAL, []⟩
  else
    match operation with
    | .PMEM_MAP =>
      if !kmalloc_ok then ⟨s.store d, .error .ENOMEM, []⟩
      else
        let s := s.store { d with region_list := region :: d.region_list }
        -- A file that is not mapped gets the region at its `mmap`.
        if d.vma && PMEM_IS_SUBMAP d then
          ⟨s, if remap_ok then .ok () else .error .EAGAIN,
            [⟨d.file, add32 (pmem_start_addr p d) region.offset, region.len⟩]⟩
        else ⟨s, .ok (), []⟩
    | .PMEM_UNMAP =>
      if region ∈ d.region_list then
        ⟨s.store { d with region_list := d.region_list.filter fun r => decide (r ≠ region) },
          .ok (), []⟩
      else ⟨s.store d, .error .EINVAL, []⟩

def pmem_remap (s : State) (d : PmemData) (region : Region) (operation : RemapOp)
    (locking : Locking) (master_file : Option Nat) (kmalloc_ok remap_ok : Bool) : Result :=
  if !PMEM_IS_PAGE_ALIGNED region.offset ∨ !PMEM_IS_PAGE_ALIGNED region.len then
    ⟨s, .error .EINVAL, []⟩
  else if region.len = 0 then ⟨s, .ok (), []⟩
  else
    let r := pmem_lock_data_and_mm d locking
    if !r.2 then ⟨s.store r.1, .ok (), []⟩
    else pmem_remap_locked s r.1 region operation master_file kmalloc_ok remap_ok

def pmem_revoke (d : PmemData) (locking : Locking) : PmemData :=
  let r := pmem_lock_data_and_mm { d with master_file := none } locking
  -- All its regions are unmapped and garbage is mapped instead.
  if r.2 && r.1.vma then { r.1 with region_list := [] } else r.1

/-- What the release of `f` does to another file of the device. -/
def revoke_sub (f : PmemData) (locking : Nat → Locking) (d : PmemData) : PmemData :=
  if f.mastermap && decide (d.id = f.id) && PMEM_IS_SUBMAP d &&
      decide (d.master_file = some f.file) then
    pmem_revoke d (locking d.file)
  else d

def pmem_release (s : State) (f : PmemData) (locking : Nat → Locking) : Result :=
  let files := free PmemData.file f.file (s.files.map (revoke_sub f locking))
  let s' := { s with files := files }
  -- Only the file that has allocated the block gives it back.
  if !f.connected && has_allocation f then
    ⟨s'.set_pmem f.id (pmem_free (s.pmem f.id) f.index.toNat), .ok (), []⟩
  else ⟨s', .ok (), []⟩

/-! ## The transition system -/

inductive Label where
  | pmem_open (id file : Nat)
  | pmem_allocate (file : Nat) (len : UInt32)
  | pmem_mmap (file : Nat) (vm_pgoff vma_size : UInt32) (garbage_ok : Bool) (mapped : Nat)
  | pmem_connect (file : Nat) (src : Option Nat)
  | pmem_remap (file : Nat) (offset len : UInt32) (operation : RemapOp) (locking : Locking)
      (master_file : Option Nat) (kmalloc_ok remap_ok : Bool)
  | pmem_vma_close (file : Nat)
  | pmem_release (file : Nat) (locking : Nat → Locking)

/-- A new file has an address that no other file has. A file is released
when nothing refers to it any more, so after its mapping is closed. -/
def file_step (s : State) : Label → Option Result
  | .pmem_open id file =>
    if (at? PmemData.file s.files file).isSome then none else some (pmem_open s id file)
  | .pmem_allocate file len => do
    let d ← at? PmemData.file s.files file
    some (pmem_ioctl_allocate s d len.toNat)
  | .pmem_mmap file vm_pgoff vma_size garbage_ok mapped => do
    let d ← at? PmemData.file s.files file
    some (pmem_mmap s d vm_pgoff.toNat vma_size.toNat garbage_ok mapped)
  | .pmem_connect file src => do
    let d ← at? PmemData.file s.files file
    some (pmem_connect s d src)
  | .pmem_remap file offset len operation locking master_file kmalloc_ok remap_ok => do
    let d ← at? PmemData.file s.files file
    some (pmem_remap s d ⟨offset.toNat, len.toNat⟩ operation locking master_file kmalloc_ok remap_ok)
  | .pmem_vma_close file => do
    let d ← at? PmemData.file s.files file
    some ⟨s.store (pmem_vma_close d), .ok (), []⟩
  | .pmem_release file locking => do
    let d ← at? PmemData.file s.files file
    -- The mapping holds a reference to the file.
    if d.vma then none else some (pmem_release s d locking)

def next (s : State) (l : Label) : Option State := (file_step s l).map Result.state

/-- How a device is set up: `base`, `size` and `no_allocator`. -/
abbrev Config : Type := Nat → UInt32 × UInt32 × Bool

def start (config : Config) : State :=
  ⟨fun id => pmem_setup (config id).1 (config id).2.1 (config id).2.2, [], 0⟩

/-- The pmem devices and the files open on them. -/
def pmem_files (config : Config) : System State Label :=
  .ofFun (fun s => s = start config) next

end Nubernel.Pmem
