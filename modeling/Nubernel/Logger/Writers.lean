import Nubernel.Logger.Entries

/-! # logger: several writers at once

`logger_aio_write` reads `w_off` into `orig` before it takes the mutex,
and sets `w_off` back to `orig` when it fails. A call is therefore two
steps, with steps of other tasks in between.

If another write has been committed in between, the failing one takes
the write head back over that entry. If not, `orig` is still where the
last entry ends, and the log stays in order.
-/

namespace Nubernel.Logger

open Arena LTS List Option RingBuffer

/-! ## The system -/

/-- A call of `logger_aio_write` that has read `w_off` and not yet taken the
mutex. -/
structure Pending where
  task : Nat
  orig : Nat
  /-- Ghost: the number of writes that had succeeded by then. -/
  commits : Nat

/-- A log with the calls in progress. -/
structure WriterState where
  state : State
  pending : List Pending

inductive WriterLabel where
  /-- `size_t orig = log->w_off;` -/
  | enter (task : Nat)
  /-- The rest of the call: return at once for a null write, and otherwise
  the locked section. -/
  | locked (task : Nat) (header : LoggerEntry) (iov : List Iovec)
  /-- Another operation, run without interruption. -/
  | op (l : Label)

/-- The rest of a call. -/
def finish_write (s : State) (orig : Nat) (header : LoggerEntry) (iov : List Iovec) :
    State × Except Errno Int :=
  let (log, ret) := if header_len iov = 0 then (s.log, .ok 0)
    else logger_aio_write_locked s.log orig header iov
  ({ s with log := log, written := written_after s.written header iov ret }, ret)

def run_step (w : WriterState) : WriterLabel → Option (WriterState × Except Errno Int)
  | .enter task =>
    match at? Pending.task w.pending task with
    | some _ => none
    | none =>
      let p : Pending := ⟨task, w.state.log.w_off, w.state.written.length⟩
      some ({ w with pending := w.pending ++ [p] }, .ok 0)
  | .locked task header iov =>
    (at? Pending.task w.pending task).map fun p =>
      let (s, ret) := finish_write w.state p.orig header iov
      (⟨s, free Pending.task task w.pending⟩, ret)
  | .op l => (run_op w.state l).map fun (s, ret) => ({ w with state := s }, ret)

/-- A log used by any number of tasks. -/
def writers (order : Nat) : System WriterState WriterLabel :=
  .ofFun (· = ⟨initialState order, []⟩) fun w l => (run_step w l).map Prod.fst

/-! ## The invariant -/

/-- What a pending call has read is where the last entry ended then. -/
def PendingOk (order : Nat) (written : List Bytes) (p : Pending) : Prop :=
  p.commits ≤ written.length ∧ p.orig = flen (written.take p.commits) % 2 ^ order

theorem PendingOk.append {order : Nat} {written : List Bytes} {p : Pending}
    (h : PendingOk order written p) (more : List Bytes) : PendingOk order (written ++ more) p := by
  obtain ⟨hle, horig⟩ := h
  constructor
  · rw [length_append]
    omega
  rw [take_append_of_le_length hle]
  exact horig

structure WritersOk (order : Nat) (w : WriterState) : Prop where
  log : LogOk order w.state.log w.state.written
  pending : ∀ p ∈ w.pending, PendingOk order w.state.written p

/-- A call whose copies from user space fail gets the mutex before any
other write is committed. -/
def NoCommitBeforeFault (w : WriterState) : WriterLabel → Prop
  | .locked task _ iov =>
    ∀ p ∈ at? Pending.task w.pending task, copy_faults w.state.log iov = true →
      p.commits = w.state.written.length
  | _ => True

instance (w : WriterState) : (l : WriterLabel) → Decidable (NoCommitBeforeFault w l)
  | .enter _ => isTrue trivial
  | .locked task _ iov => inferInstanceAs (Decidable
      (∀ p ∈ at? Pending.task w.pending task, copy_faults w.state.log iov = true →
        p.commits = w.state.written.length))
  | .op _ => isTrue trivial

variable {s : State} {ret : Except Errno Int}

/-- The rest of a call keeps the log in order, if the call does not fail or
`orig` is where the last entry ends. -/
theorem finish_write_ok {order orig : Nat} (horder : 14 ≤ order) (h : LogOk order s.log s.written)
    (header : LoggerEntry) (iov : List Iovec)
    (horig : copy_faults s.log iov = true → orig = flen s.written % 2 ^ order) :
    LogOk order (finish_write s orig header iov).1.log (finish_write s orig header iov).1.written :=
  h.write horder orig header iov horig

theorem WritersOk.step {order : Nat} (horder : 14 ≤ order) {w w' : WriterState} {l : WriterLabel}
    (h : WritersOk order w) (hcond : NoCommitBeforeFault w l)
    (hstep : run_step w l = some (w', ret)) : WritersOk order w' := by
  obtain ⟨hlog, hpending⟩ := h
  cases l with
  | enter task =>
    unfold run_step at hstep
    simp only at hstep
    split at hstep
    · cases hstep
    obtain ⟨rfl, _⟩ := hstep
    refine ⟨hlog, ?_⟩
    intro p hp
    rcases mem_append.mp hp with hp | hp
    · exact hpending p hp
    rw [mem_singleton.mp hp]
    refine ⟨le_rfl, ?_⟩
    rw [take_length, ← hlog.window.size]
    exact hlog.w_off
  | locked task header iov =>
    obtain ⟨p, hp, heq⟩ := map_eq_some_iff.mp hstep
    obtain ⟨rfl, _⟩ := heq
    obtain ⟨hmem, _⟩ := mem_of_at? hp
    obtain ⟨hle, horig⟩ := hpending p hmem
    constructor
    · apply finish_write_ok horder hlog header iov
      intro hfault
      rw [horig, hcond p hp hfault, take_length]
    intro q hq
    obtain ⟨more, hmore⟩ := written_after_append w.state.written header iov
      (finish_write w.state p.orig header iov).2
    have hq' := (hpending q (mem_of_mem_filter hq)).append more
    rw [← hmore] at hq'
    exact hq'
  | op l =>
    obtain ⟨⟨s, ret'⟩, hop, heq⟩ := map_eq_some_iff.mp hstep
    obtain ⟨rfl, _⟩ := heq
    obtain ⟨hlog', more, hmore⟩ := hlog.step horder hop
    refine ⟨hlog', ?_⟩
    intro p hp
    rw [hmore]
    exact (hpending p hp).append more

/-- **No entry is taken back**: in every run in which a write that fails
finds the log as it was when it read `w_off`, the write head is always
where the last entry written ends, and from `head` and from every reader
the entries written lead up to it. -/
theorem failed_writes_keep_entries {order : Nat} (hsize : 4 * LOGGER_ENTRY_MAX_LEN ≤ 2 ^ order)
    {w : WriterState} (h : ((writers order).restrict NoCommitBeforeFault).Reachable w) :
    w.state.log.w_off = w.state.written.flatten.length % w.state.log.size ∧
    (∃ es, entries_from w.state.log w.state.log.size w.state.log.head = some es ∧
      es <:+ w.state.written) ∧
    ∀ r ∈ w.state.log.readers,
      ∃ es, entries_from w.state.log w.state.log.size r.r_off = some es ∧ es <:+ w.state.written := by
  have horder := order_of_size hsize
  have hok : WritersOk order w := by
    apply System.invariant (P := WritersOk order) _ _ h
    · intro w hw
      rw [hw]
      exact ⟨log_ok_initial order, by simp⟩
    intro w l w' hw hstep
    obtain ⟨hcond, hstep⟩ := hstep
    obtain ⟨⟨w'', ret⟩, hrun, rfl⟩ := map_eq_some_iff.mp hstep
    exact hw.step horder hcond hrun
  refine ⟨hok.log.w_off, ?_, ?_⟩
  · obtain ⟨old, es, hsplit, _, hc⟩ := hok.log.window.head
    exact ⟨es, hok.log.entries_from hsplit hc, old, hsplit.symm⟩
  intro r hr
  obtain ⟨old, es, hsplit, _, _, hc⟩ := hok.log.window.readers r hr
  exact ⟨es, hok.log.entries_from hsplit hc, old, hsplit.symm⟩

/-- One task writes an entry; another one fails after it, without having
started before. -/
theorem failed_writes_keep_entries_two_tasks :
    ∃ w, ((writers 14).restrict NoCommitBeforeFault).Reachable w ∧
      w.state.log.w_off = 21 ∧
      w.state.log.w_off = w.state.written.flatten.length % w.state.log.size := by
  let header : LoggerEntry := ⟨0, 1, 1, 7, 0⟩
  let run : List WriterLabel :=
    [.enter 0, .locked 0 header [⟨[65], none, none⟩],
      .enter 1, .locked 1 header [⟨[66], some [], none⟩]]
  obtain ⟨w, hreach, heq⟩ : ∃ w, ((writers 14).restrict NoCommitBeforeFault).Reachable w ∧
      w.state.log.w_off = 21 :=
    System.restrict_exists_of_replay run rfl (by decide +kernel)
  exact ⟨w, hreach, heq, (failed_writes_keep_entries (by decide) hreach).1⟩

/-- Without the condition an entry is taken back: the second task writes
its entry while the first one waits for the mutex, and the first one
then fails. -/
theorem failed_write_takes_entry_back :
    ¬ ∀ w, (writers 14).Reachable w →
      w.state.log.w_off = w.state.written.flatten.length % w.state.log.size := by
  intro h
  let header : LoggerEntry := ⟨0, 1, 1, 7, 0⟩
  let run : List WriterLabel :=
    [.enter 0, .enter 1, .locked 1 header [⟨[66], none, none⟩],
      .locked 0 header [⟨[65], some [], none⟩]]
  obtain ⟨w, hreach, hne⟩ : ∃ w, (writers 14).Reachable w ∧
      w.state.log.w_off ≠ w.state.written.flatten.length % w.state.log.size :=
    System.exists_of_replay run rfl (by decide +kernel)
  exact hne (h w hreach)

end Nubernel.Logger
