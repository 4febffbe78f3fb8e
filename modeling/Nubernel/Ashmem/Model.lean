import Nubernel.Framework.System
import Nubernel.Lib.Arena
import Nubernel.Lib.Word

/-! # ashmem: areas, unpinned ranges and the shrinker

Model of `mm/ashmem.c`. An area is created by `open`, sized by the
`ASHMEM_SET_SIZE` ioctl and backed by a shmem file at its first `mmap`.
From then on its owner may unpin page intervals, which the shrinker may
purge, and pin them again, learning whether a purge happened.

The unpinned intervals of an area are the `AshmemRange`s on its
`unpinned_list`, kept in descending order. The ranges of all areas
that are not purged are also linked on the global `ashmem_lru_list`.
A range is stored in the list of its area; the LRU list refers to it by
address.

All operations run under `ashmem_mutex`, so a run of the system is a
sequence of whole operations.
-/

namespace Nubernel.Ashmem

open Arena LTS

/-! ## Data -/

/-- `struct ashmem_range`: an interval of unpinned (evictable) pages. -/
structure AshmemRange where
  addr : Nat
  pgstart : Nat
  pgend : Nat
  /-- `true` is `ASHMEM_WAS_PURGED`, `false` is `ASHMEM_NOT_PURGED`. -/
  purged : Bool
  deriving DecidableEq, Repr

/-- `struct ashmem_area`, less its name. -/
structure AshmemArea where
  addr : Nat
  unpinned_list : List AshmemRange
  /-- Whether the backing shmem file exists. -/
  file : Bool
  size : Nat
  prot_mask : Nat
  deriving DecidableEq, Repr

/-- The globals: the LRU list and its page count. -/
structure Lru where
  ashmem_lru_list : List Nat
  lru_count : Nat
  /-- The slab allocator has only handed out addresses below this one. -/
  next_addr : Nat
  /-- Ghost: some subtraction from `lru_count` has wrapped below zero. -/
  underflow : Bool
  deriving DecidableEq, Repr

/-- The state of the subsystem. -/
structure State where
  areas : List AshmemArea
  lru : Lru
  deriving DecidableEq, Repr

/-- `range_size(range)`, computed in `size_t`. -/
def range_size (r : AshmemRange) : Nat := add32 (sub32 r.pgend r.pgstart) 1

abbrev range_on_lru (r : AshmemRange) : Prop := r.purged = false

abbrev page_range_subsumes_range (r : AshmemRange) (start stop : Nat) : Prop :=
  r.pgstart ≥ start ∧ r.pgend ≤ stop

abbrev page_range_subsumed_by_range (r : AshmemRange) (start stop : Nat) : Prop :=
  r.pgstart ≤ start ∧ r.pgend ≥ stop

abbrev page_in_range (r : AshmemRange) (page : Nat) : Prop :=
  r.pgstart ≤ page ∧ r.pgend ≥ page

abbrev page_range_in_range (r : AshmemRange) (start stop : Nat) : Prop :=
  page_in_range r start ∨ page_in_range r stop ∨ page_range_subsumes_range r start stop

abbrev range_before_page (r : AshmemRange) (page : Nat) : Prop := r.pgend < page

/-! ## Ranges and the LRU list -/

def lru_add (l : Lru) (r : AshmemRange) : Lru :=
  { l with
    ashmem_lru_list := l.ashmem_lru_list ++ [r.addr]
    lru_count := add32 l.lru_count (range_size r) }

/-- `lru_count -= n`. -/
def lru_sub (l : Lru) (n : Nat) : Lru :=
  { l with
    lru_count := sub32 l.lru_count n
    underflow := l.underflow || decide (l.lru_count < n) }

def lru_del (l : Lru) (r : AshmemRange) : Lru :=
  lru_sub { l with ashmem_lru_list := l.ashmem_lru_list.erase r.addr } (range_size r)

/-- `range_alloc`, up to the link into `asma->unpinned_list`, which the
callers do at the position of `prev_range`. `zalloc` is whether
`kmem_cache_zalloc` finds memory. -/
def range_alloc (zalloc : Bool) (l : Lru) (purged : Bool) (start stop : Nat) :
    Option (AshmemRange × Lru) :=
  if zalloc then
    let r : AshmemRange := ⟨l.next_addr, start, stop, purged⟩
    let l := { l with next_addr := l.next_addr + 1 }
    some (r, if range_on_lru r then lru_add l r else l)
  else none

/-- `range_del`, less the unlinking from `asma->unpinned_list`. -/
def range_del (l : Lru) (r : AshmemRange) : Lru :=
  if range_on_lru r then lru_del l r else l

/-- The range after it, and the globals. -/
def range_shrink (l : Lru) (r : AshmemRange) (start stop : Nat) : AshmemRange × Lru :=
  let r' := { r with pgstart := start, pgend := stop }
  (r', if range_on_lru r' then lru_sub l (sub32 (range_size r) (range_size r')) else l)

/-! ## Pin, unpin and pin status -/

/-- A list of ranges being rebuilt, the globals and a return value. -/
structure Walk (ρ : Type) where
  ranges : List AshmemRange
  lru : Lru
  ret : ρ
  deriving DecidableEq, Repr

/-- Keep `r` in front of the rest of the list. -/
def Walk.cons {ρ : Type} (r : AshmemRange) (w : Walk ρ) : Walk ρ :=
  { w with ranges := r :: w.ranges }

/-- The loop of `ashmem_pin` from the current entry on; `ret` is the value
accumulated so far. -/
def ashmem_pin_loop (zalloc : Bool) (pgstart pgend : Nat) :
    List AshmemRange → Lru → Bool → Walk Bool
  | [], l, ret => ⟨[], l, ret⟩
  | r :: rs, l, ret =>
    -- moved past last applicable page; we can short circuit
    if range_before_page r pgstart then ⟨r :: rs, l, ret⟩
    else if page_range_in_range r pgstart pgend then
      let ret := ret || r.purged
      if page_range_subsumes_range r pgstart pgend then
        -- Case #1: nuke the whole thing
        ashmem_pin_loop zalloc pgstart pgend rs (range_del l r) ret
      else if r.pgstart ≥ pgstart then
        -- Case #2: we overlap from the start, so adjust it
        let (r', l) := range_shrink l r (add32 pgend 1) r.pgend
        (ashmem_pin_loop zalloc pgstart pgend rs l ret).cons r'
      else if r.pgend ≤ pgend then
        -- Case #3: we overlap from the rear, so adjust it
        let (r', l) := range_shrink l r r.pgstart (sub32 pgstart 1)
        (ashmem_pin_loop zalloc pgstart pgend rs l ret).cons r'
      else
        -- Case #4: we eat a chunk out of the middle; the result of
        -- `range_alloc` is not looked at
        match range_alloc zalloc l r.purged (add32 pgend 1) r.pgend with
        | some (new, l) =>
          let (r', l) := range_shrink l r r.pgstart (sub32 pgstart 1)
          ⟨new :: r' :: rs, l, ret⟩
        | none =>
          let (r', l) := range_shrink l r r.pgstart (sub32 pgstart 1)
          ⟨r' :: rs, l, ret⟩
    else (ashmem_pin_loop zalloc pgstart pgend rs l ret).cons r

/-- `ashmem_pin`; the result is `true` for `ASHMEM_WAS_PURGED`. -/
def ashmem_pin (zalloc : Bool) (rs : List AshmemRange) (l : Lru) (pgstart pgend : Nat) :
    Walk Bool :=
  ashmem_pin_loop zalloc pgstart pgend rs l false

/-- What one scan of the list in `ashmem_unpin` ends with. -/
inductive Scan where
  /-- The pages are already unpinned. -/
  | subsumed
  /-- `r` overlaps: merge it into the request and restart. -/
  | absorb (before : List AshmemRange) (r : AshmemRange) (after : List AshmemRange)
  /-- The insertion point is in front of `after`. -/
  | insert (before after : List AshmemRange)
  deriving DecidableEq, Repr

/-- The scan moved past `r`. -/
def Scan.cons (r : AshmemRange) : Scan → Scan
  | .subsumed => .subsumed
  | .absorb before r' after => .absorb (r :: before) r' after
  | .insert before after => .insert (r :: before) after

/-- One pass of `list_for_each_entry_safe` in `ashmem_unpin`. -/
def unpin_scan (pgstart pgend : Nat) : List AshmemRange → Scan
  | [] => .insert [] []
  | r :: rs =>
    -- short circuit: this is our insertion point
    if range_before_page r pgstart then .insert [] (r :: rs)
    else if page_range_subsumed_by_range r pgstart pgend then .subsumed
    else if page_range_in_range r pgstart pgend then .absorb [] r rs
    else (unpin_scan pgstart pgend rs).cons r

/-- `ashmem_unpin` from the label `restart` on. Each restart has taken one
range off the list, so `fuel` never needs to exceed its length. -/
def ashmem_unpin_restart (zalloc : Bool) : Nat → Nat → Nat → Bool → List AshmemRange → Lru →
    Option (Walk (Except Errno Int))
  | fuel, pgstart, pgend, purged, rs, l =>
    match unpin_scan pgstart pgend rs with
    | .subsumed => some ⟨rs, l, .ok 0⟩
    | .insert before after =>
      match range_alloc zalloc l purged pgstart pgend with
      | some (new, l) => some ⟨before ++ new :: after, l, .ok 0⟩
      | none => some ⟨rs, l, .error .ENOMEM⟩
    | .absorb before r after =>
      match fuel with
      | 0 => none
      | fuel + 1 =>
        ashmem_unpin_restart zalloc fuel (min r.pgstart pgstart) (max r.pgend pgend)
          (purged || r.purged) (before ++ after) (range_del l r)

def ashmem_unpin (zalloc : Bool) (rs : List AshmemRange) (l : Lru) (pgstart pgend : Nat) :
    Option (Walk (Except Errno Int)) :=
  ashmem_unpin_restart zalloc rs.length pgstart pgend false rs l

/-- `0` is `ASHMEM_IS_UNPINNED`, `1` is
`ASHMEM_IS_PINNED`. -/
def ashmem_get_pin_status (pgstart pgend : Nat) : List AshmemRange → Nat
  | [] => 1
  | r :: rs =>
    if range_before_page r pgstart then 1
    else if page_range_in_range r pgstart pgend then 0
    else ashmem_get_pin_status pgstart pgend rs

/-! ## The operations -/

/-- The ioctls that end in `ashmem_pin_unpin`. -/
inductive PinCmd where
  | ASHMEM_PIN | ASHMEM_UNPIN | ASHMEM_GET_PIN_STATUS
  deriving DecidableEq, Repr

/-- `pin.len` after the first check of `ashmem_pin_unpin`: per custom, you
can pass zero for len to mean "everything onward". -/
def pin_len (a : AshmemArea) (offset len : Nat) : Nat :=
  if len = 0 then sub32 (PAGE_ALIGN a.size) offset else len

/-- The argument checks of `ashmem_pin_unpin`: the page interval it goes on
with, or `none` for `-EINVAL`. -/
def pin_interval (a : AshmemArea) (offset len : UInt32) : Option (Nat × Nat) :=
  let offset := offset.toNat
  let len := pin_len a offset len.toNat
  if (offset ||| len) &&& (PAGE_SIZE - 1) ≠ 0 then none
  else if sub32 (2 ^ 32 - 1) offset < len then none
  else if PAGE_ALIGN a.size < add32 offset len then none
  else
    let pgstart := offset / PAGE_SIZE
    some (pgstart, sub32 (add32 pgstart (len / PAGE_SIZE)) 1)

/-- `ashmem_pin_unpin` on an area. `pin` is `none` when `copy_from_user`
fails. -/
def ashmem_pin_unpin (a : AshmemArea) (l : Lru) (cmd : PinCmd)
    (pin : Option (UInt32 × UInt32)) (zalloc : Bool) :
    Option (AshmemArea × Lru × Except Errno Int) :=
  if a.file = false then some (a, l, .error .EINVAL)
  else match pin with
  | none => some (a, l, .error .EFAULT)
  | some (offset, len) =>
    match pin_interval a offset len with
    | none => some (a, l, .error .EINVAL)
    | some (pgstart, pgend) =>
      match cmd with
      | .ASHMEM_PIN =>
        let w := ashmem_pin zalloc a.unpinned_list l pgstart pgend
        some ({ a with unpinned_list := w.ranges }, w.lru, .ok w.ret.toNat)
      | .ASHMEM_UNPIN =>
        (ashmem_unpin zalloc a.unpinned_list l pgstart pgend).map fun w =>
          ({ a with unpinned_list := w.ranges }, w.lru, w.ret)
      | .ASHMEM_GET_PIN_STATUS =>
        some (a, l, .ok (ashmem_get_pin_status pgstart pgend a.unpinned_list))

/-- `ashmem_release` takes every range off the list of the area. -/
def ashmem_release (a : AshmemArea) (l : Lru) : Lru :=
  a.unpinned_list.foldl range_del l

/-- `ASHMEM_SET_SIZE`. -/
def set_size (a : AshmemArea) (size : UInt32) : AshmemArea × Except Errno Int :=
  if a.file then (a, .error .EINVAL) else ({ a with size := size.toNat }, .ok 0)

def PROT_READ : Nat := 1
def PROT_EXEC : Nat := 4
def PROT_MASK : Nat := 7

/-- `set_prot_mask`; `personality` is whether the caller has
`READ_IMPLIES_EXEC`. -/
def set_prot_mask (a : AshmemArea) (prot : UInt32) (personality : Bool) :
    AshmemArea × Except Errno Int :=
  -- the user can only remove, not add, protection bits
  if a.prot_mask &&& prot.toNat ≠ prot.toNat then (a, .error .EINVAL)
  else
    let prot := if prot.toNat &&& PROT_READ ≠ 0 ∧ personality then prot.toNat ||| PROT_EXEC
      else prot.toNat
    ({ a with prot_mask := prot }, .ok 0)

/-- `shmem` is whether `shmem_file_setup` succeeds when it
is called, and its error otherwise. The protection bits of `vm_flags`
have the same positions as those of `prot_mask`. -/
def ashmem_mmap (a : AshmemArea) (vm_flags : UInt32) (shmem : Except Errno Unit) :
    AshmemArea × Except Errno Int :=
  -- user needs to SET_SIZE before mapping
  if a.size = 0 then (a, .error .EINVAL)
  -- requested protection bits must match our allowed protection mask
  else if vm_flags.toNat &&& (PROT_MASK ^^^ (a.prot_mask &&& PROT_MASK)) ≠ 0 then
    (a, .error .EPERM)
  else if a.file then (a, .ok 0)
  else match shmem with
  | .error e => (a, .error e)
  | .ok () => ({ a with file := true }, .ok 0)

/-- The range at an address, with the area it belongs to. -/
def find_range (areas : List AshmemArea) (addr : Nat) : Option (AshmemArea × AshmemRange) :=
  areas.findSome? fun a =>
    (at? AshmemRange.addr a.unpinned_list addr).map fun r => (a, r)

/-- `range->purged = ASHMEM_WAS_PURGED` for the range at `addr`. -/
def mark_purged (areas : List AshmemArea) (addr : Nat) : List AshmemArea :=
  areas.map fun a =>
    { a with unpinned_list :=
        modify AshmemRange.addr addr (fun r => { r with purged := true }) a.unpinned_list }

/-- The loop of `ashmem_shrink` over the rest of the LRU list. `none` is a
crash: an entry that is no range, or a range of an area without file. -/
def ashmem_shrink_loop : List Nat → Int → List AshmemArea → Lru →
    Option (List AshmemArea × Lru)
  | [], _, areas, l => some (areas, l)
  | addr :: rest, nr_to_scan, areas, l =>
    match find_range areas addr with
    | none => none
    | some (a, r) =>
      if a.file = false then none
      else
        let areas := mark_purged areas addr
        let l := lru_del l r
        let nr_to_scan := toInt32 (nr_to_scan - range_size r)
        if nr_to_scan ≤ 0 then some (areas, l)
        else ashmem_shrink_loop rest nr_to_scan areas l

/-- `ashmem_shrink`; `gfp_fs` is whether `gfp_mask` has `__GFP_FS`. The
value is the one returned, `-1` or `lru_count` as an `int`. -/
def ashmem_shrink (s : State) (nr_to_scan : Int) (gfp_fs : Bool) : Option (State × Int) :=
  -- We might recurse into filesystem code, so bail out if necessary
  if nr_to_scan ≠ 0 ∧ gfp_fs = false then some (s, -1)
  else if nr_to_scan = 0 then some (s, toInt32 s.lru.lru_count)
  else
    (ashmem_shrink_loop s.lru.ashmem_lru_list nr_to_scan s.areas s.lru).map fun (areas, lru) =>
      (⟨areas, lru⟩, toInt32 lru.lru_count)

/-! ## The system -/

/-- The operations of the device. Areas are named by their address. -/
inductive Label where
  | ashmem_open (zalloc : Bool)
  | ashmem_release (asma : Nat)
  | set_size (asma : Nat) (size : UInt32)
  | set_prot_mask (asma : Nat) (prot : UInt32) (personality : Bool)
  | ashmem_mmap (asma : Nat) (vm_flags : UInt32) (shmem : Except Errno Unit)
  | ashmem_pin_unpin (asma : Nat) (cmd : PinCmd) (pin : Option (UInt32 × UInt32)) (zalloc : Bool)
  | ashmem_shrink (nr_to_scan : Int) (gfp_fs : Bool)
  | purge_all_caches (capable : Bool)

/-- The area at an address. -/
def State.area (s : State) (asma : Nat) : Option AshmemArea :=
  at? AshmemArea.addr s.areas asma

/-- Store an area back. -/
def set_area (areas : List AshmemArea) (a' : AshmemArea) : List AshmemArea :=
  modify AshmemArea.addr a'.addr (fun _ => a') areas

/-- One operation and its return value; `none` when the area named is not
open, or when the kernel would crash. -/
def run_op (s : State) : Label → Option (State × Except Errno Int)
  | .ashmem_open zalloc =>
    if zalloc then
      let a : AshmemArea := ⟨s.lru.next_addr, [], false, 0, PROT_MASK⟩
      some (⟨s.areas ++ [a], { s.lru with next_addr := s.lru.next_addr + 1 }⟩, .ok 0)
    else some (s, .error .ENOMEM)
  | .ashmem_release asma =>
    (s.area asma).map fun a =>
      (⟨free AshmemArea.addr asma s.areas, Ashmem.ashmem_release a s.lru⟩, .ok 0)
  | .set_size asma size =>
    (s.area asma).map fun a =>
      let (a', ret) := Ashmem.set_size a size
      ({ s with areas := set_area s.areas a' }, ret)
  | .set_prot_mask asma prot personality =>
    (s.area asma).map fun a =>
      let (a', ret) := Ashmem.set_prot_mask a prot personality
      ({ s with areas := set_area s.areas a' }, ret)
  | .ashmem_mmap asma vm_flags shmem =>
    (s.area asma).map fun a =>
      let (a', ret) := Ashmem.ashmem_mmap a vm_flags shmem
      ({ s with areas := set_area s.areas a' }, ret)
  | .ashmem_pin_unpin asma cmd pin zalloc =>
    (s.area asma).bind fun a =>
      (Ashmem.ashmem_pin_unpin a s.lru cmd pin zalloc).map fun (a', lru, ret) =>
        (⟨set_area s.areas a', lru⟩, ret)
  | .ashmem_shrink nr_to_scan gfp_fs =>
    (Ashmem.ashmem_shrink s (toInt32 nr_to_scan) gfp_fs).map fun (s, ret) => (s, .ok ret)
  | .purge_all_caches capable =>
    if capable then
      (Ashmem.ashmem_shrink s 0 true).bind fun (s, ret) =>
        (Ashmem.ashmem_shrink s ret true).map fun (s, _) => (s, .ok ret)
    else some (s, .error .EPERM)

def initialState : State := ⟨[], ⟨[], 0, 0, false⟩⟩

/-- The ashmem subsystem. -/
def ashmem : System State Label :=
  .ofFun (· = initialState) fun s l => (run_op s l).map Prod.fst

instance (s : State) (l : Label) (s' : State) : Decidable (ashmem.step s l s') :=
  inferInstanceAs (Decidable ((run_op s l).map Prod.fst = some s'))

end Nubernel.Ashmem
