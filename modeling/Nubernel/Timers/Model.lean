import Nubernel.Lib.Word
import Nubernel.Framework.System

/-! # timer

Model of the timer wheel of `kernel/timer.c` on one base, for 32-bit `jiffies`. There
are five vectors of lists; `tv1` has a list for each of the next 256 jiffies, and a list
of a higher vector is spread over the lower ones when its time comes.

A timer here is one use of a `struct timer_list`: adding it again makes another one.
Besides what the source has, it keeps the time at which it was added. Times in the
state that never wrap (`count` for `timer_jiffies`, `now` for `jiffies`) number the
iterations; the code reads and compares only the words.

Masks `& (2 ^ n - 1)` are written as remainders.
-/

open LTS

namespace Nubernel.Timers

/-! ## The wheel -/

def TVN_BITS : Nat := 6
def TVR_BITS : Nat := 8
def TVN_SIZE : Nat := 64
def TVR_SIZE : Nat := 256

structure Timer where
  id : Nat
  expires : Nat
  /-- The iteration that was to come when the timer was added. -/
  added : Nat
deriving DecidableEq

/-- `struct tvec_base`; the vector 0 is `tv1`, the vector 4 is `tv5`. -/
structure Base where
  timer_jiffies : Nat
  vec : Nat → Nat → List Timer

def Base.setVec (b : Base) (level i : Nat) (l : List Timer) : Base :=
  { b with vec := fun level' i' => if level' = level ∧ i' = i then l else b.vec level' i' }

/-- The list that `internal_add_timer` chooses. -/
def place (timer_jiffies expires : Nat) : Nat × Nat :=
  let idx := sub32 expires timer_jiffies
  if idx < TVR_SIZE then (0, expires % TVR_SIZE)
  else if idx < 2 ^ (TVR_BITS + TVN_BITS) then (1, (expires >>> TVR_BITS) % TVN_SIZE)
  else if idx < 2 ^ (TVR_BITS + 2 * TVN_BITS) then
    (2, (expires >>> (TVR_BITS + TVN_BITS)) % TVN_SIZE)
  else if idx < 2 ^ (TVR_BITS + 3 * TVN_BITS) then
    (3, (expires >>> (TVR_BITS + 2 * TVN_BITS)) % TVN_SIZE)
  else if 2 ^ 31 ≤ idx then (0, timer_jiffies % TVR_SIZE)
  else (4, (expires >>> (TVR_BITS + 3 * TVN_BITS)) % TVN_SIZE)

def internal_add_timer (b : Base) (timer : Timer) : Base :=
  let (level, i) := place b.timer_jiffies timer.expires
  b.setVec level i (b.vec level i ++ [timer])

def cascade (b : Base) (level index : Nat) : Base :=
  (b.vec level index).foldl internal_add_timer (b.setVec level index [])

/-- `INDEX(N)`. -/
def INDEX (b : Base) (n : Nat) : Nat := (b.timer_jiffies >>> (TVR_BITS + n * TVN_BITS)) % TVN_SIZE

/-- The cascades at the beginning of an iteration; each returns its index, and the next one
is done only if that is 0. -/
def cascades (b : Base) : Base :=
  if b.timer_jiffies % TVR_SIZE = 0 then
    if INDEX b 0 = 0 then
      if INDEX b 1 = 0 then
        if INDEX b 2 = 0 then
          cascade (cascade (cascade (cascade b 1 (INDEX b 0)) 2 (INDEX b 1)) 3 (INDEX b 2)) 4
            (INDEX b 3)
        else cascade (cascade (cascade b 1 (INDEX b 0)) 2 (INDEX b 1)) 3 (INDEX b 2)
      else cascade (cascade b 1 (INDEX b 0)) 2 (INDEX b 1)
    else cascade b 1 (INDEX b 0)
  else b

def time_after_eq (a b : Nat) : Bool := decide (sub32 a b < 2 ^ 31)

/-! ## State -/

structure World where
  base : Base
  /-- `base->timer_jiffies`, without wrapping. -/
  count : Nat
  /-- `jiffies`, without wrapping. -/
  now : Nat
  /-- The `work_list` of `__run_timers`, while it runs. -/
  running : Option (List Timer)
  /-- All timers that have been added. -/
  added : List Timer
  /-- Those that were deleted before they were run. -/
  deleted : List Timer
  /-- Those that were run, and in which iteration. -/
  log : List (Timer × Nat)

/-! ## Labels -/

inductive Label where
  /-- A timer is added, by a handler or from elsewhere. -/
  | add (expires : Nat)
  /-- A timer is deleted from a list of the wheel, or from the work list. -/
  | del (site : Option (Nat × Nat)) (timer : Timer)
  /-- Time passes. -/
  | advance (n : Nat)
  /-- `__run_timers` is called. -/
  | call
  /-- The test of its loop and, if it holds, an iteration up to the work list. -/
  | iterate
  /-- The first timer of the work list is run. -/
  | run

/-! ## System -/

def World.add (w : World) (expires : Nat) : World :=
  let timer : Timer := ⟨w.added.length, expires, w.count⟩
  { w with base := internal_add_timer w.base timer, added := timer :: w.added }

def World.iterate (w : World) : World :=
  let index := w.base.timer_jiffies % TVR_SIZE
  let base := cascades w.base
  let base := { base with timer_jiffies := add32 base.timer_jiffies 1 }
  { w with
    base := base.setVec 0 index []
    count := w.count + 1
    running := some (base.vec 0 index) }

def World.next (w : World) : Label → Option World
  | .add expires => if expires < 2 ^ 32 then some (w.add expires) else none
  | .del (some (level, i)) timer =>
    if timer ∈ w.base.vec level i then
      some { w with
        base := w.base.setVec level i ((w.base.vec level i).erase timer)
        deleted := timer :: w.deleted }
    else none
  | .del none timer =>
    match w.running with
    | some work =>
      if timer ∈ work then
        some { w with running := some (work.erase timer), deleted := timer :: w.deleted }
      else none
    | none => none
  | .advance n => if w.now + n < w.count + 2 ^ 31 then some { w with now := w.now + n } else none
  | .call => if w.running = none then some { w with running := some [] } else none
  | .iterate =>
    match w.running with
    | some [] =>
      if time_after_eq (w.now % 2 ^ 32) w.base.timer_jiffies then some w.iterate
      else some { w with running := none }
    | _ => none
  | .run =>
    match w.running with
    | some (timer :: work) =>
      some { w with running := some work, log := (timer, w.count - 1) :: w.log }
    | _ => none

/-- An empty wheel, with `timer_jiffies` equal to `jiffies`. -/
structure World.Init (w : World) : Prop where
  empty : ∀ level i, w.base.vec level i = []
  jiffies : w.base.timer_jiffies = w.now % 2 ^ 32
  count : w.count = w.now
  running : w.running = none
  added : w.added = []
  deleted : w.deleted = []
  log : w.log = []

def timer_wheel : System World Label := System.ofFun World.Init World.next

/-! ## When a timer is to be run -/

/-- The timer was added with an `expires` in the past. -/
def Timer.late (x : Timer) : Prop := 2 ^ 31 ≤ sub32 x.expires (x.added % 2 ^ 32)

instance (x : Timer) : Decidable x.late := inferInstanceAs (Decidable (_ ≤ _))

/-- The number of the iteration: the one to come if the timer is late, and otherwise the
next one that has the number `expires` as a word. -/
def Timer.due (x : Timer) : Nat :=
  if x.late then x.added else x.added + sub32 x.expires (x.added % 2 ^ 32)

end Nubernel.Timers
