import Nubernel.Lib.Bitmap

/-! # Pid allocation

Model of the pid maps of `kernel/pid.c`, for a namespace with any number of maps.
A map has a bit for each of its pids and the number of those that are clear; its
page is allocated when the map is used for the first time.

Calls are taken one after another, so that `test_and_set_bit` and the pointer to
the page are not raced for.
-/

open Function

namespace Nubernel.Pid

def RESERVED_PIDS : Nat := 300
def BITS_PER_PAGE : Nat := 4096 * 8

/-- `struct pidmap`. -/
structure Pidmap where
  nr_free : Nat
  page : Option (Nat → Bool)

/-- The fields of `struct pid_namespace` that the allocation uses. -/
structure Namespace where
  pidmap : Nat → Pidmap
  last_pid : Nat

def mk_pid (map off : Nat) : Nat := map * BITS_PER_PAGE + off

/-- `find_next_zero_bit` in a page. -/
def find_next_offset (page : Nat → Bool) (off : Nat) : Nat :=
  Bitmap.findNext (fun i => !page i) BITS_PER_PAGE off

/-- The page of a map that has none yet is `kzalloc`ed. -/
def zeroed (m : Pidmap) : Pidmap :=
  match m.page with
  | none => { m with page := some fun _ => false }
  | some _ => m

/-- The loop over one map. `more` is the part of its condition that is about the pid.
The result is the offset of the bit that has been set. -/
def scan (more : Nat → Bool) (page : Nat → Bool) (map : Nat) : Nat → Nat → Option Nat
  | 0, _ => none
  | fuel + 1, offset =>
    if page offset = false then some offset
    else
      let offset := find_next_offset page offset
      if offset < BITS_PER_PAGE ∧ more (mk_pid map offset) then scan more page map fuel offset
      else none

/-- The bit has been set. -/
def take (ns : Namespace) (map offset : Nat) (page : Nat → Bool) : Namespace :=
  { pidmap := update ns.pidmap map
      { nr_free := (ns.pidmap map).nr_free - 1, page := some (update page offset true) }
    last_pid := mk_pid map offset }

/-- The loop over the maps, with the number of rounds that are left; the round with
`i == max_scan` is the last one. `kzalloc` says whether pages can be allocated. -/
def alloc_loop (kzalloc : Bool) (pid_max last : Nat) :
    Nat → Nat → Nat → Namespace → Option Nat × Namespace
  | 0, _, _, ns => (none, ns)
  | rounds + 1, map, offset, ns =>
    match (if kzalloc then zeroed (ns.pidmap map) else ns.pidmap map).page with
    | none => (none, ns)
    | some page =>
      let ns := { ns with
        pidmap := update ns.pidmap map { ns.pidmap map with page := some page } }
      let more := fun pid =>
        pid < pid_max ∧ (rounds ≠ 0 ∨ pid < last ∨ (last + 1) % BITS_PER_PAGE = 0)
      match (if (ns.pidmap map).nr_free ≠ 0 then
          scan (fun pid => decide (more pid)) page map (BITS_PER_PAGE + 1) offset else none) with
      | some offset => (some (mk_pid map offset), take ns map offset page)
      | none =>
        if map < (pid_max - 1) / BITS_PER_PAGE then
          alloc_loop kzalloc pid_max last rounds (map + 1) 0 ns
        else if last = RESERVED_PIDS then (none, ns)
        else alloc_loop kzalloc pid_max last rounds 0 RESERVED_PIDS ns

/-- `alloc_pidmap`, where `none` is the result -1. -/
def alloc_pidmap (kzalloc : Bool) (pid_max : Nat) (ns : Namespace) : Option Nat × Namespace :=
  let last := ns.last_pid
  let pid := if last + 1 ≥ pid_max then RESERVED_PIDS else last + 1
  let offset := pid % BITS_PER_PAGE
  let max_scan :=
    (pid_max + BITS_PER_PAGE - 1) / BITS_PER_PAGE - (if offset = 0 then 1 else 0)
  alloc_loop kzalloc pid_max last (max_scan + 1) (pid / BITS_PER_PAGE) offset ns

def free_pidmap (ns : Namespace) (nr : Nat) : Namespace :=
  let map := nr / BITS_PER_PAGE
  { ns with
    pidmap := update ns.pidmap map
      { nr_free := (ns.pidmap map).nr_free + 1
        page := (ns.pidmap map).page.map fun page =>
          update page (nr % BITS_PER_PAGE) false } }

end Nubernel.Pid
