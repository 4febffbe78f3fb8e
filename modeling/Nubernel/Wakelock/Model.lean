import Nubernel.Framework.System
import Nubernel.Lib.Word

/-! # wakelock: the model

Model of `kernel/power/wakelock.c`. While a wake lock of type
`WAKE_LOCK_SUSPEND` is active the system does not suspend. A lock is held
until `wake_unlock` or, if it was taken with a timeout, until it expires.
Expiry is lazy: a lock that has expired stays on the list of active locks
until `has_wake_lock_locked` comes across it. `expire_timer` is there to
look at the list again once all locks will have expired, and
`suspend_work` is queued when no lock is held.

`jiffies` and the times derived from it are counted since boot and do not
wrap; the words of the source are their residues modulo `2 ^ 32`, and
`time_left` computes with these. The statistics are left out.
-/

open LTS

namespace Nubernel.Wakelock

/-! ## Locks and lists -/

inductive LockType where
  | WAKE_LOCK_SUSPEND | WAKE_LOCK_IDLE
  deriving DecidableEq, Repr

/-- `struct wake_lock`, with the flags one by one. -/
structure WakeLock where
  initialized : Bool
  active : Bool
  auto_expire : Bool
  type : LockType
  expires : Int
  deriving DecidableEq, Repr

structure State where
  jiffies : Nat
  locks : Nat → WakeLock
  active_wake_locks : LockType → List Nat
  inactive_locks : List Nat
  /-- When `expire_timer` is due, while it is pending. -/
  expire_timer : Option Int
  /-- How often `suspend_work` was queued. -/
  queued : Nat
  /-- Whether `suspend_work` was queued since a suspend lock was last held. -/
  queued_since : Bool

/-- `lock->expires - jiffies` as a `long`. -/
def State.time_left (s : State) (lock : Nat) : Int := toInt32 ((s.locks lock).expires - s.jiffies)

def State.set_lock (s : State) (lock : Nat) (l : WakeLock) : State :=
  { s with locks := Function.update s.locks lock l }

/-- `list_del(&lock->link)`, from the list that it is on. -/
def list_del (s : State) (lock : Nat) : State :=
  { s with
    active_wake_locks := fun type => (s.active_wake_locks type).filter (· ≠ lock)
    inactive_locks := s.inactive_locks.filter (· ≠ lock) }

/-- `list_add(&lock->link, &inactive_locks)`. -/
def add_inactive (s : State) (lock : Nat) : State :=
  { s with inactive_locks := lock :: s.inactive_locks }

/-- `list_add(&lock->link, &active_wake_locks[type])`. -/
def add_active (s : State) (type : LockType) (lock : Nat) : State :=
  { s with
    active_wake_locks := Function.update s.active_wake_locks type
      (lock :: s.active_wake_locks type) }

/-- `list_add_tail(&lock->link, &active_wake_locks[type])`. -/
def add_active_tail (s : State) (type : LockType) (lock : Nat) : State :=
  { s with
    active_wake_locks := Function.update s.active_wake_locks type
      (s.active_wake_locks type ++ [lock]) }

/-- `queue_work(suspend_work_queue, &suspend_work)`. -/
def queue_suspend_work (s : State) : State :=
  { s with queued := s.queued + 1, queued_since := true }

/-! ## The functions of the source -/

/-- The lock leaves the list of active locks; `expire_wake_lock`, and the
start of `wake_unlock`. -/
def expire_wake_lock (s : State) (lock : Nat) : State :=
  add_inactive (list_del (s.set_lock lock
    { s.locks lock with active := false, auto_expire := false }) lock) lock

/-- The loop of `has_wake_lock_locked`. -/
def has_wake_lock_loop : List Nat → State → Int → State × Int
  | [], s, max_timeout => (s, max_timeout)
  | lock :: rest, s, max_timeout =>
    if (s.locks lock).auto_expire then
      -- An expired lock is dropped on the way.
      if s.time_left lock ≤ 0 then
        has_wake_lock_loop rest (expire_wake_lock s lock) max_timeout
      else if s.time_left lock > max_timeout then
        has_wake_lock_loop rest s (s.time_left lock)
      else
        has_wake_lock_loop rest s max_timeout
    else
      (s, -1)

/-- `-1` if a lock without timeout is active, else the longest time that an
active lock has left. -/
def has_wake_lock_locked (s : State) (type : LockType) : State × Int :=
  has_wake_lock_loop (s.active_wake_locks type) s 0

/-- What `wake_lock_internal` and `wake_unlock` do with the result: set the
timer, or delete it and queue the work if no lock is held. -/
def update_expire_timer (s : State) (expire_in : Int) : State :=
  if expire_in > 0 then
    { s with expire_timer := some (s.jiffies + expire_in) }
  -- Nothing is held: the system may suspend.
  else if expire_in = 0 then
    queue_suspend_work { s with expire_timer := none }
  else
    { s with expire_timer := none }

def wake_lock_init (s : State) (lock : Nat) (type : LockType) : State :=
  add_inactive (s.set_lock lock
    { s.locks lock with initialized := true, active := false, auto_expire := false, type := type })
    lock

def wake_lock_destroy (s : State) (lock : Nat) : State :=
  list_del (s.set_lock lock { s.locks lock with initialized := false }) lock

/-- The lock when it is taken; `expires` is `LONG_MAX` if it has no timeout. -/
def taken (s : State) (lock : Nat) : Option Int → WakeLock
  | some timeout => { s.locks lock with
      active := true, auto_expire := true, expires := s.jiffies + timeout }
  | none => { s.locks lock with active := true, auto_expire := false, expires := 0x7fffffff }

/-- The part of `wake_lock_internal` that moves the lock to its list. Locks
without timeout are in front of those with one. -/
def make_active (s : State) (lock : Nat) (timeout : Option Int) : State :=
  let s' := list_del (s.set_lock lock (taken s lock timeout)) lock
  if timeout.isSome then
    add_active_tail s' (s.locks lock).type lock
  else
    add_active s' (s.locks lock).type lock

/-- `wake_lock_internal`; without a timeout it is `wake_lock`. -/
def wake_lock_internal (s : State) (lock : Nat) (timeout : Option Int) : State :=
  let s' := make_active s lock timeout
  match (s.locks lock).type with
  | .WAKE_LOCK_SUSPEND =>
    if timeout.isSome then
      -- Other locks may have more time left than this one.
      let r := has_wake_lock_locked s' .WAKE_LOCK_SUSPEND
      update_expire_timer r.1 r.2
    else
      -- `expire_in = -1` without a look at the other locks.
      update_expire_timer s' (-1)
  | .WAKE_LOCK_IDLE => s'

def wake_unlock (s : State) (lock : Nat) : State :=
  let type := (s.locks lock).type
  let s := expire_wake_lock s lock
  match type with
  | .WAKE_LOCK_SUSPEND =>
    let r := has_wake_lock_locked s .WAKE_LOCK_SUSPEND
    update_expire_timer r.1 r.2
  | .WAKE_LOCK_IDLE => s

/-- The timer has fired, so it is no longer pending. -/
def expire_wake_locks (s : State) : State :=
  let r := has_wake_lock_locked { s with expire_timer := none } .WAKE_LOCK_SUSPEND
  -- If a lock was taken in the meantime, it has set the timer itself.
  if r.2 = 0 then queue_suspend_work r.1 else r.1

/-! ## The transition system -/

inductive Op where
  | wake_lock_init (lock : Nat) (type : LockType)
  | wake_lock_destroy (lock : Nat)
  | wake_lock (lock : Nat)
  | wake_lock_timeout (lock : Nat) (timeout : Int)
  | wake_unlock (lock : Nat)
  | expire_wake_locks
  deriving DecidableEq, Repr

/-- An operation and the jiffies that pass before it. -/
structure Label where
  elapsed : Nat
  op : Op
  deriving DecidableEq, Repr

/-- Whether a call is one that the interface allows: a lock is initialised
once, used while it is initialised, and destroyed when it is inactive; the
timer does not fire before it is due. -/
def allowed (s : State) : Op → Bool
  | .wake_lock_init lock _ => !(s.locks lock).initialized
  | .wake_lock_destroy lock => (s.locks lock).initialized && !(s.locks lock).active
  | .wake_lock lock => (s.locks lock).initialized
  | .wake_lock_timeout lock timeout =>
    (s.locks lock).initialized && decide (-2 ^ 31 ≤ timeout ∧ timeout < 2 ^ 31)
  | .wake_unlock lock => (s.locks lock).initialized
  | .expire_wake_locks => s.expire_timer.any fun due : Int => decide (due ≤ s.jiffies)

def operation (s : State) : Op → State
  | .wake_lock_init lock type => wake_lock_init s lock type
  | .wake_lock_destroy lock => wake_lock_destroy s lock
  | .wake_lock lock => wake_lock_internal s lock none
  | .wake_lock_timeout lock timeout => wake_lock_internal s lock (some timeout)
  | .wake_unlock lock => wake_unlock s lock
  | .expire_wake_locks => expire_wake_locks s

/-- Whether a lock has no timeout, or has not reached it. -/
def unexpired (s : State) (lock : Nat) : Bool :=
  !(s.locks lock).auto_expire || decide ((s.jiffies : Int) < (s.locks lock).expires)

/-- Forget that `suspend_work` was queued if a suspend lock is held. -/
def observe (s : State) : State :=
  if (s.active_wake_locks .WAKE_LOCK_SUSPEND).any (unexpired s) then
    { s with queued_since := false }
  else
    s

/-- The state when `l.op` starts. -/
def at_start (s : State) (l : Label) : State := { s with jiffies := s.jiffies + l.elapsed }

/-- Less than half the range of `jiffies` passes between two operations. -/
def wake_step (s : State) (l : Label) : Option State :=
  if l.elapsed < 2 ^ 31 ∧ allowed (at_start s l) l.op = true then
    some (observe (operation (at_start s l) l.op))
  else
    none

/-! ### The locks of `wakelock.c` itself -/

def deleted_wake_locks : Nat := 0
def main_wake_lock : Nat := 1
def unknown_wakeup : Nat := 2
def sync_wake_lock : Nat := 3

/-- No lock has been initialised. -/
def no_locks (now : Nat) : State :=
  ⟨now, fun _ => ⟨false, false, false, .WAKE_LOCK_SUSPEND, 0⟩, fun _ => [], [], none, 0, false⟩

/-- `wakelocks_init` at time `now`. -/
def wakelocks_init (now : Nat) : State :=
  let s := wake_lock_init (no_locks now) deleted_wake_locks .WAKE_LOCK_SUSPEND
  let s := wake_lock_init s main_wake_lock .WAKE_LOCK_SUSPEND
  let s := wake_lock_internal s main_wake_lock none
  let s := wake_lock_init s unknown_wakeup .WAKE_LOCK_SUSPEND
  wake_lock_init s sync_wake_lock .WAKE_LOCK_SUSPEND

/-- All sequences of operations. -/
def wakelocks : System State Label := .ofFun (fun s => ∃ now, s = wakelocks_init now) wake_step

end Nubernel.Wakelock
