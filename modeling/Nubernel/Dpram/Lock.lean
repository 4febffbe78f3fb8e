import Nubernel.Framework.System
import Nubernel.Framework.Tasks

/-! # dpram: the lock and the semaphore

Model of `onedram_get_semaphore`, `onedram_lock_with_semaphore`,
`onedram_release_lock`, `send_interrupt_to_phone_with_semaphore` and
`return_onedram_semaphore` of `drivers/onedram/dpram/dpram.c`, for any number
of tasks: callers of `dpram_write`, the receive tasklets, senders of
interrupts and `semaphore_control_handler`. A step of a task is one read or
write of `onedram_lock`, `*onedram_sem` or `requested_semaphore`.

The lock is a counter that several tasks can hold. The functions that give
the semaphore away test that it is 0 and give the semaphore away some steps
later; those that ask for it to be given away at the release of the lock do
so some steps after they have tested that it is not 0.
-/

open Bool Function LTS Option Tasks

namespace Nubernel.Dpram.Lock

/-! ## The functions of the source -/

/-- Where a task is: the access it makes next. -/
inductive Pc where
  | idle
  /-- `onedram_get_semaphore`: poll the semaphore. -/
  | getSem
  /-- `onedram_lock_with_semaphore`: increment the lock, -/
  | lockInc
  /-- read the semaphore, -/
  | lockSem
  /-- there is none: decrement the lock. -/
  | lockDec
  /-- The lock has been taken: shared memory is accessed. -/
  | locked
  /-- `onedram_release_lock`, the lock having been decremented: read
  `requested_semaphore`, -/
  | relReq
  /-- read the lock, -/
  | relLock
  /-- read the semaphore, -/
  | relSem
  /-- give it away, -/
  | relGive
  /-- clear `requested_semaphore`. -/
  | relClear
  /-- The lock has been released. -/
  | released
  /-- `send_interrupt_to_phone_with_semaphore`: read the lock, -/
  | sendLock
  /-- read the semaphore, -/
  | sendSem
  /-- give it away, -/
  | sendGive
  /-- clear `requested_semaphore`. -/
  | sendClear
  /-- `return_onedram_semaphore`: read the lock, -/
  | retLock
  /-- read the semaphore, -/
  | retSem
  /-- give it away; -/
  | retGive
  /-- or read `requested_semaphore`, -/
  | retRead
  /-- write it. -/
  | retWrite (value : Nat)
deriving DecidableEq

/-- The functions that a task calls. -/
inductive Call where
  /-- `dpram_write`. -/
  | write
  /-- `dpram_read_fmt` or `dpram_read_raw`. -/
  | read
  | send_interrupt_to_phone_with_semaphore
  | semaphore_control_handler

def Call.entry : Call → Pc
  | .write => .getSem
  | .read => .lockInc
  | .send_interrupt_to_phone_with_semaphore => .sendLock
  | .semaphore_control_handler => .retLock

structure State (n : Nat) where
  onedram_lock : Int
  /-- `*onedram_sem`: the semaphore is on this side. -/
  sem : Bool
  requested_semaphore : Nat
  pc : Fin n → Pc
  /-- A request was made while the lock was held, and the semaphore has not
  been given away since. -/
  waiting : Bool

inductive Label (n : Nat) where
  /-- A task that is idle calls a function. -/
  | start (t : Fin n) (call : Call)
  /-- The next access of a task. -/
  | step (t : Fin n)
  /-- A task stops polling, releases the lock or returns without sending an
  interrupt. -/
  | leave (t : Fin n)
  /-- The phone hands the semaphore over. -/
  | grant

variable {n : Nat}

/-- The task goes on to `q`. -/
def State.goto (s : State n) (t : Fin n) (q : Pc) : State n :=
  { s with pc := Function.update s.pc t q }

/-- The semaphore is given away. -/
def State.give (s : State n) : State n := { s with sem := false, waiting := false }

/-- Some task has the lock. -/
def State.held (s : State n) : Bool := decide (∃ t, s.pc t = .locked)

/-- The accesses of a task. -/
def access (s : State n) (t : Fin n) : Option (State n) :=
  match s.pc t with
  | .idle => none
  | .getSem => some (s.goto t (if s.sem then .lockInc else .getSem))
  | .lockInc => some ({ s with onedram_lock := s.onedram_lock + 1 }.goto t .lockSem)
  | .lockSem => some (s.goto t (if s.sem then .locked else .lockDec))
  | .lockDec => some ({ s with onedram_lock := s.onedram_lock - 1 }.goto t .idle)
  -- Shared memory is accessed, but none of the variables.
  | .locked => some s
  | .relReq => some (s.goto t (if s.requested_semaphore ≠ 0 then .relLock else .released))
  | .relLock => some (s.goto t (if s.onedram_lock = 0 then .relSem else .released))
  | .relSem => some (s.goto t (if s.sem then .relGive else .released))
  | .relGive => some (s.give.goto t .relClear)
  | .relClear => some ({ s with requested_semaphore := 0 }.goto t .released)
  | .released => some (s.goto t .sendLock)
  | .sendLock => some (s.goto t (if s.onedram_lock = 0 then .sendSem else .idle))
  | .sendSem => some (s.goto t (if s.sem then .sendGive else .idle))
  | .sendGive => some (s.give.goto t .sendClear)
  | .sendClear => some ({ s with requested_semaphore := 0 }.goto t .idle)
  | .retLock =>
    if s.onedram_lock = 0 then
      some (s.goto t .retSem)
    else
      -- A request counts if some task has the lock now.
      some ({ s with waiting := s.waiting || s.held }.goto t .retRead)
  | .retSem => some (s.goto t (if s.sem then .retGive else .idle))
  | .retGive => some (s.give.goto t .idle)
  | .retRead => some (s.goto t (.retWrite s.requested_semaphore))
  | .retWrite value => some ({ s with requested_semaphore := value + 1 }.goto t .idle)

def next (s : State n) : Label n → Option (State n)
  | .start t call => if s.pc t = .idle then some (s.goto t call.entry) else none
  | .step t => access s t
  | .leave t =>
    match s.pc t with
    | .getSem => some (s.goto t .idle)
    | .locked => some ({ s with onedram_lock := s.onedram_lock - 1 }.goto t .relReq)
    | .released => some (s.goto t .idle)
    | _ => none
  | .grant => some { s with sem := true }

/-- No task has called anything. -/
def init (s : State n) : Prop :=
  s.onedram_lock = 0 ∧ s.requested_semaphore = 0 ∧ s.waiting = false ∧ ∀ t, s.pc t = .idle

def system (n : Nat) : System (State n) (Label n) := System.ofFun init next

/-! ## Parts of the program -/

/-- The task has incremented the lock. -/
def counted : Pc → Bool
  | .lockSem | .lockDec | .locked => true
  | _ => false

/-- The task has found the lock to be 0 and will give the semaphore away. -/
def giving : Pc → Bool
  | .relSem | .relGive | .relClear | .sendSem | .sendGive | .sendClear | .retSem | .retGive => true
  | _ => false

/-- The task has given the semaphore away and will clear the requests. -/
def clearing : Pc → Bool
  | .relClear | .sendClear => true
  | _ => false

/-- The task has found the lock not to be 0 and will make a request. -/
def requesting : Pc → Bool
  | .retRead | .retWrite _ => true
  | _ => false

/-- The task is in `onedram_release_lock`, before it gives the semaphore away. -/
def releasing : Pc → Bool
  | .relReq | .relLock | .relSem | .relGive => true
  | _ => false

/-- The task will get to see a request. -/
def watching : Pc → Bool
  | .lockSem | .locked => true
  | p => releasing p

/-- A move that enters and leaves no part of the program that matters. -/
def plain (p q : Pc) : Bool :=
  counted q == counted p && (!giving q || giving p) && q != .locked &&
    (!requesting p || requesting q) && (!watching p || watching q) && (!clearing q || clearing p)

/-- What must not come between a test and what it is made for. -/
def Undisturbed (s : State n) : Label n → Prop
  | .step t =>
    match s.pc t with
    | .lockInc => ∀ i, giving (s.pc i) = false
    | .relReq => ∀ i, requesting (s.pc i) = false
    | .relLock => ∀ i, s.pc i ≠ .lockDec
    | _ => True
  | _ => True

instance (s : State n) (l : Label n) : Decidable (Undisturbed s l) := by
  unfold Undisturbed
  split
  · split <;> infer_instance
  · infer_instance

/-! ## The invariant -/

structure Inv (s : State n) : Prop where
  /-- The lock counts the tasks that have incremented it. -/
  lock : s.onedram_lock = count counted s.pc
  /-- No task has incremented it while another gives the semaphore away. -/
  apart : ∀ i j, giving (s.pc i) = true → counted (s.pc j) = false
  /-- A task that has the lock has the semaphore. -/
  sem : ∀ i, s.pc i = .locked → s.sem = true
  waiting_sem : s.waiting = true → s.sem = true
  /-- A request is on record, or about to be. -/
  request : s.waiting = true → s.requested_semaphore ≠ 0 ∨ ∃ i, requesting (s.pc i) = true
  /-- And some task will look at it. -/
  watched : s.waiting = true → ∃ i, watching (s.pc i) = true
  /-- It will not be cleared before. -/
  kept : s.waiting = true → ∀ i, clearing (s.pc i) = false

variable {p : Pc}

theorem giving_of_clearing (h : clearing p = true) : giving p = true := by
  cases p <;> first | rfl | cases h

theorem not_counted_of_giving (h : giving p = true) : counted p = false := by
  cases p <;> first | rfl | cases h

theorem counted_of_locked (h : p = .locked) : counted p = true := by
  rw [h]
  rfl

theorem not_requesting_of_counted (h : counted p = true) : requesting p = false := by
  cases p <;> first | rfl | cases h

section steps
variable {s : State n} {t : Fin n} {p q : Pc}

section
variable (h : Inv s)
include h

/-- The lock is 0: no task has incremented it. -/
theorem Inv.not_counted (hlock : s.onedram_lock = 0) (i : Fin n) :
    counted (s.pc i) = false := by
  have hcount := h.lock
  by_contra hi
  have hpos := count_pos_iff.mpr ⟨i, of_not_eq_false hi⟩
  omega

/-- While a task has incremented the lock, none gives the semaphore away. -/
theorem Inv.not_giving {j : Fin n} (hj : counted (s.pc j) = true) (i : Fin n) :
    giving (s.pc i) = false := by
  by_contra hi
  have hnot := h.apart i j (of_not_eq_false hi)
  rw [hj] at hnot
  cases hnot

/-- The tasks that give the semaphore away and those that have incremented the
lock stay apart. -/
theorem Inv.apart_goto (hgiving : giving q = true → ∀ j, counted (s.pc j) = false)
    (hcounted : counted q = true → ∀ i, giving (s.pc i) = false) (i j : Fin n)
    (hi : giving (update s.pc t q i) = true) :
    counted (update s.pc t q j) = false := by
  -- First the task that moves, then all the others.
  refine forall_update (Q := fun p : Pc => giving p = true →
    counted (update s.pc t q j) = false) ?_ ?_ i hi
  · intro hg
    exact forall_update (Q := fun p : Pc => counted p = false) (not_counted_of_giving hg)
      (hgiving hg) j
  intro i hi
  refine forall_update (Q := fun p : Pc => counted p = false) ?_ (fun j => h.apart i j hi) j
  by_contra hc
  have hnot := hcounted (of_not_eq_false hc) i
  rw [hi] at hnot
  cases hnot

section
variable (hpc : s.pc t = p)
include hpc

/-- A task goes on from `p` to `q`; the lock and the record of the requests may change. -/
theorem Inv.move {lock : Int} {request : Nat}
    (hlock : lock + (counted p).toNat = s.onedram_lock + (counted q).toNat)
    (hgiving : giving q = false ∨ giving p = true ∨ s.onedram_lock = 0)
    (hcounted : counted q = false ∨ counted p = true ∨ ∀ i, giving (s.pc i) = false)
    (hlocked : q ≠ .locked ∨ s.sem = true)
    (hrequest : s.waiting = true → s.requested_semaphore ≠ 0 → request ≠ 0)
    (hrequesting : requesting p = false ∨ request ≠ 0 ∨ requesting q = true)
    (hwatching : watching p = false ∨ watching q = true ∨
      (s.waiting = true → ∃ i ≠ t, watching (s.pc i) = true))
    (hclearing : clearing q = false ∨ clearing p = true) :
    Inv ({ s with onedram_lock := lock, requested_semaphore := request }.goto t q) where
  lock := by
    have hcount := count_update counted s.pc t q
    have hold := h.lock
    rw [hpc] at hcount
    show lock = count counted (update s.pc t q)
    omega
  apart := by
    subst hpc
    -- A task that starts to give the semaphore away has just seen that the lock
    -- is 0.
    apply h.apart_goto
    · intro hq
      rcases hgiving with hno | hp | hzero
      · rw [hq] at hno
        cases hno
      · exact fun j => h.apart t j hp
      · exact h.not_counted hzero
    intro hq
    rcases hcounted with hno | hp | hnone
    · rw [hq] at hno
      cases hno
    · exact h.not_giving hp
    · exact hnone
  sem := forall_update (Q := fun p : Pc => p = .locked → s.sem = true)
    (fun hq => hlocked.resolve_left (not_not_intro hq)) h.sem
  waiting_sem := h.waiting_sem
  request := by
    intro hw
    by_cases hr : request ≠ 0
    · exact Or.inl hr
    rcases h.request hw with hreq | hreq
    · exact absurd (hrequest hw hreq) hr
    refine Or.inr (exists_update hreq fun hp => ?_)
    rw [hpc] at hp
    rw [hp] at hrequesting
    exact (hrequesting.resolve_left (by decide)).resolve_left hr
  watched := by
    intro hw
    by_cases hp : watching p = true
    · rw [hp] at hwatching
      rcases hwatching.resolve_left (by decide) with hq | hother
      · exact ⟨t, by
          show watching (update s.pc t q t) = true
          rw [update_self]
          exact hq⟩
      obtain ⟨j, hj, hjw⟩ := hother hw
      exact ⟨j, by
        show watching (update s.pc t q j) = true
        rw [update_of_ne hj]
        exact hjw⟩
    exact exists_update (h.watched hw) fun hp' => absurd (hpc ▸ hp') hp
  kept := by
    intro hw
    refine forall_update (Q := fun p : Pc => clearing p = false) ?_ (h.kept hw)
    rcases hclearing with hq | hp
    · exact hq
    have hkept := h.kept hw t
    rw [hpc, hp] at hkept
    cases hkept

/-- A task goes on and changes nothing else. -/
theorem Inv.goto (hcounted : counted q = counted p)
    (hgiving : giving q = false ∨ giving p = true ∨ s.onedram_lock = 0)
    (hlocked : q ≠ .locked ∨ s.sem = true)
    (hrequesting : requesting p = false ∨ requesting q = true)
    (hwatching : watching p = false ∨ watching q = true ∨
      (s.waiting = true → ∃ i ≠ t, watching (s.pc i) = true))
    (hclearing : clearing q = false ∨ clearing p = true) : Inv (s.goto t q) := by
  refine h.move hpc ?_ hgiving ?_ hlocked (fun _ => id) (hrequesting.imp_right Or.inr) hwatching
    hclearing
  · rw [hcounted]
  rw [hcounted]
  rcases eq_false_or_eq_true (counted p) with hp | hp
  · exact Or.inr (Or.inl hp)
  · exact Or.inl hp

/-- A task goes on within the parts of the program it is in. -/
theorem Inv.plain (hplain : plain p q = true) :
    Inv (s.goto t q) := by
  simp only [Lock.plain, and_eq_true, beq_iff_eq, or_eq_true, not_eq_true', bne_iff_ne] at hplain
  obtain ⟨⟨⟨⟨⟨hcounted, hgiving⟩, hlocked⟩, hrequesting⟩, hwatching⟩, hclearing⟩ := hplain
  exact h.goto hpc hcounted (hgiving.imp_right Or.inl) (Or.inl hlocked) hrequesting
    (hwatching.imp_right Or.inl) hclearing

/-- A task need not look at requests any more, as there is none, or as another
task will. -/
theorem Inv.unwatch (hcounted : counted q = counted p) (hgiving : giving q = false)
    (hlocked : q ≠ .locked) (hrequesting : requesting p = false) (hclearing : clearing q = false)
    (hwaiting : s.waiting = true → ∃ i ≠ t, watching (s.pc i) = true) : Inv (s.goto t q) :=
  h.goto hpc hcounted (Or.inl hgiving) (Or.inl hlocked) (Or.inl hrequesting)
    (Or.inr (Or.inr hwaiting)) (Or.inl hclearing)

theorem Inv.dec (hp : counted p = true) (hcounted : counted q = false) (hgiving : giving q = false)
    (hclearing : clearing q = false) (hwatching : watching p = false ∨ watching q = true) :
    Inv ({ s with onedram_lock := s.onedram_lock - 1 }.goto t q) := by
  refine h.move hpc ?_ (Or.inl hgiving) (Or.inl hcounted) (Or.inl ?_) (fun _ => id)
    (Or.inl (not_requesting_of_counted hp)) (hwatching.imp_right Or.inl) (Or.inl hclearing)
  · rw [hp, hcounted, toNat_true, toNat_false]
    omega
  rintro rfl
  cases hcounted

theorem Inv.give (hp : giving p = true) (hcounted : counted q = false) : Inv (s.give.goto t q) := by
  subst hpc
  have hno : (s.give.goto t q).waiting = true → False := by
    intro hw
    cases hw
  refine ⟨?_, ?_, ?_, fun hw => absurd hw hno, fun hw => absurd hw hno, fun hw => absurd hw hno,
    fun hw => absurd hw hno⟩
  · have hcount := count_update counted s.pc t q
    have hlock := h.lock
    rw [h.apart t t hp, hcounted] at hcount
    show s.onedram_lock = count counted (update s.pc t q)
    omega
  · apply h.apart_goto
    · intro _ j
      exact h.apart t j hp
    intro hq
    rw [hcounted] at hq
    cases hq
  intro i hi
  -- No task has the lock.
  have hnone : counted ((s.give.goto t q).pc i) = false :=
    forall_update (Q := fun p : Pc => counted p = false) hcounted (fun j => h.apart t j hp) i
  rw [counted_of_locked hi] at hnone
  cases hnone

theorem Inv.clear (hp : clearing p = true) (hcounted : counted q = false)
    (hgiving : giving q = false) :
    Inv ({ s with requested_semaphore := 0 }.goto t q) := by
  refine h.move hpc ?_ (Or.inl hgiving) (Or.inl hcounted) (Or.inl ?_) ?_ (Or.inl ?_) (Or.inl ?_)
    (Or.inr hp)
  · rw [hcounted, not_counted_of_giving (giving_of_clearing hp)]
  · rintro rfl
    cases hcounted
  · -- What is waiting is not cleared.
    intro hw
    have hkept := h.kept hw t
    rw [hpc, hp] at hkept
    cases hkept
  · cases p <;> first | rfl | cases hp
  · cases p <;> first | rfl | cases hp

end

/-- A request is made while some task has incremented the lock. -/
theorem Inv.ask (hpc : s.pc t = .retLock) :
    Inv ({ s with waiting := s.waiting || s.held }.goto t .retRead) := by
  have hgoto : Inv (s.goto t .retRead) := h.plain hpc rfl
  -- Either some request was waiting before, or the lock is held.
  have hcases : (s.waiting || s.held) = true → s.waiting = true ∨ ∃ i, s.pc i = .locked := by
    intro hw
    rcases or_eq_true_iff.mp hw with hw | hheld
    · exact Or.inl hw
    · exact Or.inr (of_decide_eq_true hheld)
  refine ⟨hgoto.lock, hgoto.apart, hgoto.sem, ?_, ?_, ?_, ?_⟩
  · intro hw
    rcases hcases hw with hw | ⟨i, hi⟩
    · exact h.waiting_sem hw
    · exact h.sem i hi
  · intro _
    exact Or.inr ⟨t, by
      show requesting (update s.pc t .retRead t) = true
      rw [update_self]
      rfl⟩
  · intro hw
    have hwatching : ∃ i, watching (s.pc i) = true := by
      rcases hcases hw with hw | ⟨i, hi⟩
      · exact h.watched hw
      · exact ⟨i, by rw [hi]; rfl⟩
    exact exists_update hwatching fun hp => by rw [hpc] at hp; cases hp
  intro hw
  refine forall_update (Q := fun p : Pc => clearing p = false) rfl ?_
  rcases hcases hw with hw | ⟨j, hj⟩
  · exact h.kept hw
  intro i
  by_contra hi
  have hgiving := h.not_giving (counted_of_locked hj) i
  rw [giving_of_clearing (of_not_eq_false hi)] at hgiving
  cases hgiving

theorem Inv.record {value : Nat} (hpc : s.pc t = .retWrite value) :
    Inv ({ s with requested_semaphore := value + 1 }.goto t .idle) := by
  exact h.move hpc rfl (Or.inl rfl) (Or.inl rfl) (Or.inl (by decide))
    (fun _ _ => Nat.succ_ne_zero value) (Or.inr (Or.inl (Nat.succ_ne_zero value))) (Or.inl rfl)
    (Or.inl rfl)

/-- A task other than `t` will get to see a request: the lock is not 0, and all
attempts to take it have been decided. -/
theorem Inv.watched_of_lock (hlock : s.onedram_lock ≠ 0)
    (hnone : ∀ i, s.pc i ≠ .lockDec) : ∃ i, counted (s.pc i) = true ∧ watching (s.pc i) = true := by
  have hpos : 0 < count counted s.pc := by
    have hcount := h.lock
    omega
  obtain ⟨i, hi⟩ := count_pos_iff.mp hpos
  refine ⟨i, hi, ?_⟩
  have hdec := hnone i
  cases hpc : s.pc i <;> rw [hpc] at hi hdec <;> first | rfl | exact absurd rfl hdec | cases hi

end

end steps

/-! ## Runs -/

variable {s s' : State n} {l : Label n}

theorem access_inv {t : Fin n} (h : Inv s) (hcond : Undisturbed s (.step t))
    (hstep : access s t = some s') : Inv s' := by
  -- Without the semaphore nothing is waiting.
  have hnot : ¬ s.sem = true → s.waiting = true → ∃ i ≠ t, watching (s.pc i) = true :=
    fun hsem hw => absurd (h.waiting_sem hw) hsem
  unfold access at hstep
  unfold Undisturbed at hcond
  cases hpc : s.pc t with simp only [hpc, Option.some.injEq] at hstep hcond
  | idle => cases hstep
  | getSem =>
    subst hstep
    split
    · exact h.plain hpc rfl
    · exact h.plain hpc rfl
  | lockInc =>
    subst hstep
    exact h.move hpc (Int.add_zero _) (Or.inl rfl) (Or.inr (Or.inr hcond)) (Or.inl (by decide))
      (fun _ => id) (Or.inl rfl) (Or.inl rfl) (Or.inl rfl)
  | lockSem =>
    subst hstep
    split
    · rename_i hsem
      exact h.goto hpc rfl (Or.inl rfl) (Or.inr hsem) (Or.inl rfl) (Or.inr (Or.inl rfl)) (Or.inl rfl)
    rename_i hsem
    exact h.unwatch hpc rfl rfl (by decide) rfl rfl (hnot hsem)
  | lockDec =>
    subst hstep
    exact h.dec hpc rfl rfl rfl rfl (Or.inl rfl)
  | locked =>
    subst hstep
    exact h
  | relReq =>
    subst hstep
    split
    · exact h.plain hpc rfl
    rename_i hreq
    -- A request that is waiting would be on record.
    refine h.unwatch hpc rfl rfl (by decide) rfl rfl fun hw => ?_
    rcases h.request hw with hreq' | ⟨i, hi⟩
    · exact absurd hreq' hreq
    rw [hcond i] at hi
    cases hi
  | relLock =>
    subst hstep
    split
    · rename_i hlock
      exact h.goto hpc rfl (Or.inr (Or.inr hlock)) (Or.inl (by decide)) (Or.inl rfl)
        (Or.inr (Or.inl rfl)) (Or.inl rfl)
    rename_i hlock
    refine h.unwatch hpc rfl rfl (by decide) rfl rfl fun _ => ?_
    -- Another task has the lock and will look when it releases it.
    obtain ⟨i, hi, hwatching⟩ := h.watched_of_lock hlock hcond
    refine ⟨i, ?_, hwatching⟩
    rintro rfl
    rw [hpc] at hi
    cases hi
  | relSem =>
    subst hstep
    split
    · exact h.plain hpc rfl
    rename_i hsem
    exact h.unwatch hpc rfl rfl (by decide) rfl rfl (hnot hsem)
  | relGive =>
    subst hstep
    exact h.give hpc rfl rfl
  | relClear =>
    subst hstep
    exact h.clear hpc rfl rfl rfl
  | released =>
    subst hstep
    exact h.plain hpc rfl
  | sendLock =>
    subst hstep
    split
    · rename_i hlock
      exact h.goto hpc rfl (Or.inr (Or.inr hlock)) (Or.inl (by decide)) (Or.inl rfl) (Or.inl rfl)
        (Or.inl rfl)
    exact h.plain hpc rfl
  | sendSem =>
    subst hstep
    split
    · exact h.plain hpc rfl
    · exact h.plain hpc rfl
  | sendGive =>
    subst hstep
    exact h.give hpc rfl rfl
  | sendClear =>
    subst hstep
    exact h.clear hpc rfl rfl rfl
  | retLock =>
    split at hstep
    · rename_i hlock
      cases hstep
      exact h.goto hpc rfl (Or.inr (Or.inr hlock)) (Or.inl (by decide)) (Or.inl rfl) (Or.inl rfl)
        (Or.inl rfl)
    cases hstep
    exact h.ask hpc
  | retSem =>
    subst hstep
    split
    · exact h.plain hpc rfl
    · exact h.plain hpc rfl
  | retGive =>
    subst hstep
    exact h.give hpc rfl rfl
  | retRead =>
    subst hstep
    exact h.plain hpc rfl
  | retWrite value =>
    subst hstep
    exact h.record hpc

theorem next_inv (h : Inv s) (hcond : Undisturbed s l) (hstep : next s l = some s') : Inv s' := by
  cases l with
  | start t call =>
    unfold next at hstep
    simp only at hstep
    split at hstep
    · rename_i hpc
      cases hstep
      cases call with
      | write | read | send_interrupt_to_phone_with_semaphore | semaphore_control_handler =>
        exact h.plain hpc rfl
    cases hstep
  | step t => exact access_inv h hcond hstep
  | leave t =>
    unfold next at hstep
    simp only at hstep
    split at hstep
    · rename_i hpc
      cases hstep
      exact h.plain hpc rfl
    · rename_i hpc
      cases hstep
      exact h.dec hpc rfl rfl rfl rfl (Or.inr rfl)
    · rename_i hpc
      cases hstep
      exact h.plain hpc rfl
    · cases hstep
  | grant =>
    cases hstep
    exact ⟨h.lock, h.apart, fun _ _ => rfl, fun _ => rfl, h.request, h.watched, h.kept⟩

theorem init_inv (h : init s) : Inv s := by
  obtain ⟨hlock, hreq, hwaiting, hidle⟩ := h
  have hno : s.waiting = true → False := by
    intro hw
    rw [hwaiting] at hw
    cases hw
  refine ⟨?_, ?_, ?_, fun hw => absurd hw hno, fun hw => absurd hw hno, fun hw => absurd hw hno,
    fun hw => absurd hw hno⟩
  · have hzero : ¬ 0 < count counted s.pc := by
      rw [count_pos_iff]
      rintro ⟨t, ht⟩
      rw [hidle t] at ht
      cases ht
    omega
  · intro i j hi
    rw [hidle i] at hi
    cases hi
  intro i hi
  rw [hidle i] at hi
  cases hi

theorem reachable_inv (h : ((system n).restrict Undisturbed).Reachable s) :
    Inv s := by
  refine System.invariant ?_ ?_ h
  · intro s hinit
    exact init_inv hinit
  intro s l s' hinv hstep
  exact next_inv hinv hstep.1 hstep.2

/-- Only a task that gives the semaphore away takes it from this side. -/
theorem sem_step (hsem : s.sem = true) (hnone : ∀ t, giving (s.pc t) = false)
    (hstep : next s l = some s') : s'.sem = true := by
  cases l with
  | start t call =>
    unfold next at hstep
    simp only at hstep
    split at hstep
    · cases hstep
      exact hsem
    cases hstep
  | step t =>
    have ht := hnone t
    unfold next access at hstep
    simp only at hstep
    split at hstep <;> rename_i hpc <;> rw [hpc] at ht
    all_goals first
      | exact absurd ht (by decide)
      | cases hstep; exact hsem
      | split at hstep <;> cases hstep <;> exact hsem
      | cases hstep
  | leave t =>
    unfold next at hstep
    simp only at hstep
    split at hstep
    all_goals first
      | cases hstep; exact hsem
      | cases hstep
  | grant =>
    cases hstep
    rfl

/-- Two tasks; the semaphore is on this side. -/
def two_tasks : State 2 := ⟨0, true, 0, fun _ => .idle, false⟩

theorem two_tasks_init : init two_tasks := ⟨rfl, rfl, rfl, fun _ => rfl⟩

end Nubernel.Dpram.Lock
