
/-! # Bounded queues

A queue of at most `cap` elements, as a list: a write appends as much of
its elements as there is room for, a drain takes elements from the front.

`Simulation.run` is the rule by which an implementation is shown to
behave as such a queue: if each operation does, from every state that
meets the invariant, then so does each sequence of operations.
-/

namespace BoundedQueue

variable {α : Type}

inductive Op (α : Type) where
  /-- Append elements. -/
  | write (xs : List α)
  /-- Take up to `k` elements. -/
  | drain (k : Nat)

/-- What the caller of an operation sees. -/
inductive Event (α : Type) where
  | wrote (n : Nat)
  | drained (xs : List α)
deriving DecidableEq

/-- One operation. -/
def step (cap : Nat) (q : List α) : Op α → Event α × List α
  | .write xs => (.wrote (min xs.length (cap - q.length)), q ++ xs.take (cap - q.length))
  | .drain k => (.drained (q.take k), q.drop k)

/-- A sequence of operations, of any kind of state. -/
def run {State Op Event : Type} (step : State → Op → Event × State) :
    State → List Op → List Event × State
  | s, [] => ([], s)
  | s, op :: ops =>
    let (e, s') := step s op
    let (es, s'') := run step s' ops
    (e :: es, s'')

theorem run_cons {State Op Event : Type} (step : State → Op → Event × State) (s : State)
    (op : Op) (ops : List Op) :
    run step s (op :: ops) =
      ((step s op).1 :: (run step (step s op).2 ops).1, (run step (step s op).2 ops).2) := rfl

/-- Each operation of an implementation does what the queue does; `view` is
the content of a state, `abs` and `rep` translate operations and what is
seen of them. -/
structure Simulation {State Op' Event' : Type} (cap : Nat) (step' : State → Op' → Event' × State)
    (Inv : State → Prop) (view : State → List α) (abs : Op' → Op α)
    (rep : Event α → Event') : Prop where
  inv : ∀ s op, Inv s → Inv (step' s op).2
  event : ∀ s op, Inv s → (step' s op).1 = rep (step cap (view s) (abs op)).1
  view : ∀ s op, Inv s → view (step' s op).2 = (step cap (view s) (abs op)).2

section simulation
variable {State Op' Event' : Type} {cap : Nat} {step' : State → Op' → Event' × State}
  {Inv : State → Prop} {view : State → List α} {abs : Op' → Op α} {rep : Event α → Event'}
  {s : State}

theorem Simulation.inv_run (h : Simulation cap step' Inv view abs rep) (hs : Inv s)
    (ops : List Op') : Inv (run step' s ops).2 := by
  induction ops generalizing s with
  | nil => exact hs
  | cons op ops ih => exact ih (h.inv s op hs)

/-- Sequences of operations do what the queue does. -/
theorem Simulation.run_eq (h : Simulation cap step' Inv view abs rep) (hs : Inv s)
    (ops : List Op') :
    (run step' s ops).1 = (run (step cap) (view s) (ops.map abs)).1.map rep ∧
      view (run step' s ops).2 = (run (step cap) (view s) (ops.map abs)).2 := by
  induction ops generalizing s with
  | nil => exact ⟨rfl, rfl⟩
  | cons op ops ih => ?_
  have hnext := ih (h.inv s op hs)
  rw [h.view s op hs] at hnext
  constructor
  · rw [List.map_cons, run_cons, run_cons, List.map_cons, ← h.event s op hs, ← hnext.1]
  · exact hnext.2

end simulation

end BoundedQueue
