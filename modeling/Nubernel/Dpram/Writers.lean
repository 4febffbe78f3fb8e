import Nubernel.Dpram.Write
import Nubernel.Framework.System
import Nubernel.Framework.Tasks

/-! # dpram: writers of one device

Model of several calls of `dpram_write` for one device at a time, with the
semaphore held. `_memcpy` runs under a spinlock, so its calls are the steps;
an index that is read or written is compared afterwards, and the copy is
repeated if another call has changed it in between.

The lock that the calls take, `onedram_lock`, is a counter and keeps nobody
out: a call that reads the head before another one writes it puts its bytes
over those of the other.
-/

open Function Halfword LTS List RingBuffer Tasks

namespace Nubernel.Dpram.Writers

/-! ## The steps of `dpram_write` -/

/-- The arguments of a call. -/
structure Call where
  buf : Mem
  src : Nat
  len : Nat

/-- Where a task is: the copy or comparison it makes next; `cnt` is the number
of copies that are left. -/
inductive Pc where
  | idle
  /-- The head is going to be read for the first time. -/
  | entered (c : Call)
  | readHead (c : Call) (cnt : Nat)
  | checkHead (c : Call) (cnt head : Nat)
  | readTail (c : Call) (cnt head : Nat)
  | checkTail (c : Call) (cnt head tail : Nat)
  /-- The parts that are still to be copied. -/
  | copy (c : Call) (head retval : Nat) (rest : List Part)
  | writeHead (c : Call) (cnt head retval : Nat)
  | checkWrite (c : Call) (cnt head retval : Nat)

/-- A step of a task: the memory, where the task goes, and what it reports as
written. -/
def advance (device : Device) (m : Mem) : Pc → Option (Mem × Pc × List (List (BitVec 8)))
  | .idle => none
  -- The first of three copies; `cnt` are left.
  | .entered c => some (m, .checkHead c 2 (read_word m device.out_head_addr), [])
  | .readHead c cnt => some (m, .checkHead c (cnt - 1) (read_word m device.out_head_addr), [])
  | .checkHead c cnt head =>
    if read_word m device.out_head_addr ≠ head ∧ cnt ≠ 0 then
      some (m, .readHead c cnt, [])
    else
      some (m, .readTail c 3 head, [])
  | .readTail c cnt head =>
    some (m, .checkTail c (cnt - 1) head (read_word m device.out_tail_addr), [])
  | .checkTail c cnt head tail =>
    if read_word m device.out_tail_addr ≠ tail ∧ cnt ≠ 0 then
      some (m, .readTail c cnt head, [])
    else
      -- The number of bytes is decided here, by indices that may be old by now.
      let parts := write_parts device head tail c.len
      some (m, .copy c head (written parts) parts, [])
  | .copy c head retval [] => some (m, .writeHead c 3 (new_head device head retval) retval, [])
  | .copy c head retval (p :: rest) =>
    some (write_part device c.buf c.src m p, .copy c head retval rest, [])
  | .writeHead c cnt head retval =>
    some (write_word m device.out_head_addr head, .checkWrite c (cnt - 1) head retval, [])
  | .checkWrite c cnt head retval =>
    if read_word m device.out_head_addr ≠ head ∧ cnt ≠ 0 then
      some (m, .writeHead c cnt head retval, [])
    else
      some (m, .idle, [slice c.buf c.src retval])

structure State (n : Nat) where
  mem : Mem
  pc : Fin n → Pc
  /-- What was unread at the start. -/
  before : List (BitVec 8)
  /-- What the calls that have returned have reported as written. -/
  log : List (List (BitVec 8))

inductive Label (n : Nat) where
  | call (t : Fin n) (c : Call)
  | step (t : Fin n)

variable {n : Nat}

def next (device : Device) (s : State n) : Label n → Option (State n)
  | .call t c =>
    match s.pc t with
    | .idle => some { s with pc := Function.update s.pc t (.entered c) }
    | _ => none
  | .step t =>
    (advance device s.mem (s.pc t)).map fun (m, q, new) =>
      { s with mem := m, pc := Function.update s.pc t q, log := s.log ++ new }

def init (device : Device) (s : State n) : Prop :=
  InRing device s.mem ∧ (∀ t, s.pc t = .idle) ∧ s.before = queue device s.mem ∧ s.log = []

def system (device : Device) (n : Nat) : System (State n) (Label n) :=
  System.ofFun (init device) (next device)

/-- The task is between its first read of the head and its last write of it. -/
def inProgress : Pc → Bool
  | .idle | .entered _ => false
  | _ => true

/-- A call reads the head only when no other one is in progress. -/
def Alone (s : State n) : Label n → Prop
  | .step t =>
    match s.pc t with
    | .entered _ => ∀ i, inProgress (s.pc i) = false
    | _ => True
  | _ => True

/-! ## A call that is alone -/

/-- What a task has done, if the memory met `P` when it read the head. -/
def Doing (device : Device) (P : Mem → Prop) (m : Mem) : Pc → Prop
  | .idle | .entered _ => False
  | .readHead _ _ => P m
  | .checkHead _ _ h | .readTail _ _ h => P m ∧ h = head device m
  | .checkTail _ _ h t => P m ∧ h = head device m ∧ t = tail device m
  | .copy c h retval rest => ∃ m₀ copied, P m₀ ∧ h = head device m₀ ∧
      write_parts device h (tail device m₀) c.len = copied ++ rest ∧
      retval = written (copied ++ rest) ∧
      m = copied.foldl (write_part device c.buf c.src) m₀
  | .writeHead c _ h retval => ∃ m₀, P m₀ ∧ h < 65536 ∧
      (retval, write_word m device.out_head_addr h) = write_locked device c.buf c.src c.len m₀
  | .checkWrite c _ h retval => ∃ m₀, P m₀ ∧ h = head device m ∧
      (retval, m) = write_locked device c.buf c.src c.len m₀

section alone
variable {device : Device} {P : Mem → Prop} {m m' : Mem} {p q : Pc}
  {new : List (List (BitVec 8))}

/-- A task goes on, or returns having done a write. -/
theorem advance_doing (h : Doing device P m p) (hstep : advance device m p = some (m', q, new)) :
    (Doing device P m' q ∧ inProgress q = true ∧ new = []) ∨
    (q = .idle ∧ ∃ (c : Call) (retval : Nat) (m₀ : Mem), P m₀ ∧ new = [slice c.buf c.src retval] ∧
      (retval, m') = write_locked device c.buf c.src c.len m₀) := by
  have hhead : read_word m device.out_head_addr = head device m := read_word_eq _ _
  have htail : read_word m device.out_tail_addr = tail device m := read_word_eq _ _
  cases p with
  | idle => cases h
  | entered c => cases h
  | readHead c cnt =>
    cases hstep
    exact Or.inl ⟨⟨h, hhead⟩, rfl, rfl⟩
  | checkHead c cnt hd =>
    unfold advance at hstep
    simp only at hstep
    -- Alone, the comparison succeeds at once.
    rw [if_neg fun hno => hno.1 (hhead.trans h.2.symm)] at hstep
    cases hstep
    exact Or.inl ⟨h, rfl, rfl⟩
  | readTail c cnt hd =>
    cases hstep
    exact Or.inl ⟨⟨h.1, h.2, htail⟩, rfl, rfl⟩
  | checkTail c cnt hd tl =>
    unfold advance at hstep
    simp only at hstep
    rw [if_neg fun hno => hno.1 (htail.trans h.2.2.symm)] at hstep
    cases hstep
    left
    refine ⟨⟨m, [], h.1, h.2.1, ?_, rfl, rfl⟩, rfl, rfl⟩
    rw [h.2.2]
    rfl
  | copy c hd retval rest =>
    obtain ⟨m₀, copied, hP, hhd, hparts, hret, hm⟩ := h
    cases rest with
    | nil =>
      cases hstep
      left
      refine ⟨⟨m₀, hP, ?_, ?_⟩, rfl, rfl⟩
      · have hmod := Nat.mod_lt (hd + retval) device.out_size_pos
        have hsize := device.out_size_le
        unfold new_head
        omega
      rw [append_nil] at hparts hret
      rw [write_word_eq, hm, hret, ← hparts, hhd]
      rfl
    | cons part rest => ?_
    cases hstep
    left
    -- One more part of the same write has been copied.
    refine ⟨⟨m₀, copied ++ [part], hP, hhd, ?_, ?_, ?_⟩, rfl, rfl⟩
    · rw [hparts, append_assoc, singleton_append]
    · rw [hret, append_assoc, singleton_append]
    · rw [hm, foldl_append, foldl_cons, foldl_nil]
  | writeHead c cnt hd retval =>
    obtain ⟨m₀, hP, hlt, hlocked⟩ := h
    cases hstep
    refine Or.inl ⟨⟨m₀, hP, ?_, hlocked⟩, rfl, rfl⟩
    rw [write_word_eq]
    exact (read_write_verify _ _ hlt).symm
  | checkWrite c cnt hd retval =>
    obtain ⟨m₀, hP, hhd, hlocked⟩ := h
    unfold advance at hstep
    simp only at hstep
    rw [if_neg fun hno => hno.1 (hhead.trans hhd.symm)] at hstep
    cases hstep
    exact Or.inr ⟨rfl, c, retval, m₀, hP, rfl, hlocked⟩

end alone

/-! ## Runs -/

/-- The ring has what was there before and what the calls have reported. -/
def Settled (device : Device) (s : State n) (m : Mem) : Prop :=
  InRing device m ∧ queue device m = s.before ++ s.log.flatten

structure Inv (device : Device) (s : State n) : Prop where
  /-- One call is in progress at a time. -/
  alone : ∀ i j, inProgress (s.pc i) = true → inProgress (s.pc j) = true → i = j
  settled : (∀ i, inProgress (s.pc i) = false) → Settled device s s.mem
  doing : ∀ i, inProgress (s.pc i) = true → Doing device (Settled device s) s.mem (s.pc i)

section steps
variable {device : Device} {s : State n} {t : Fin n}

theorem Inv.call (h : Inv device s) (hpc : s.pc t = .idle) (c : Call) :
    Inv device { s with pc := update s.pc t (.entered c) } := by
  have hsame : ∀ i, inProgress (update s.pc t (.entered c) i) = inProgress (s.pc i) := by
    intro i
    by_cases hi : i = t
    · subst hi
      rw [update_self, hpc]
      rfl
    rw [update_of_ne hi]
  refine ⟨?_, ?_, ?_⟩
  · intro i j hi hj
    exact h.alone i j ((hsame i).symm.trans hi) ((hsame j).symm.trans hj)
  · intro hnone
    exact h.settled fun i => (hsame i).symm.trans (hnone i)
  intro i hi
  have hi' := (hsame i).symm.trans hi
  have hne : i ≠ t := by
    rintro rfl
    rw [hpc] at hi'
    cases hi'
  have hdoing := h.doing i hi'
  show Doing device (Settled device s) s.mem (update s.pc t (.entered c) i)
  rw [update_of_ne hne]
  exact hdoing

/-- A task goes on or returns, while no other one is in progress. -/
theorem Inv.moved {m : Mem} {q : Pc} {log : List (List (BitVec 8))}
    (hothers : ∀ i ≠ t, inProgress (s.pc i) = false)
    (hsettled : inProgress q = false → Settled device { s with log := log } m)
    (hdoing : inProgress q = true → Doing device (Settled device { s with log := log }) m q) :
    Inv device { s with mem := m, pc := update s.pc t q, log := log } := by
  have honly : ∀ i, inProgress (update s.pc t q i) = true → i = t := by
    intro i hi
    by_contra hne
    rw [update_of_ne hne, hothers i hne] at hi
    cases hi
  refine ⟨?_, ?_, ?_⟩
  · intro i j hi hj
    rw [honly i hi, honly j hj]
  · intro hnone
    have ht : inProgress (update s.pc t q t) = false := hnone t
    rw [update_self] at ht
    exact hsettled ht
  intro i hi
  obtain rfl := honly i hi
  show Doing device _ m (update s.pc i q i)
  change inProgress (update s.pc i q i) = true at hi
  rw [update_self] at hi ⊢
  exact hdoing hi

end steps

variable {device : Device} {s : State n}

theorem next_inv {s' : State n} {l : Label n} (h : Inv device s) (hcond : Alone s l)
    (hstep : next device s l = some s') : Inv device s' := by
  cases l with
  | call t c =>
    unfold next at hstep
    simp only at hstep
    split at hstep
    · rename_i hpc
      cases hstep
      exact h.call hpc c
    cases hstep
  | step t => ?_
  obtain ⟨⟨m, q, new⟩, hadvance, rfl⟩ := Option.map_eq_some_iff.mp hstep
  simp only
  cases hpc : inProgress (s.pc t) with
  | false =>
    unfold Alone at hcond
    cases hp : s.pc t with
    | entered c =>
      -- The head is read for the first time.
      rw [hp] at hadvance
      simp only [hp] at hcond
      cases hadvance
      rw [append_nil]
      exact .moved (fun i _ => hcond i) (fun hq => by cases hq)
        fun _ => ⟨h.settled hcond, read_word_eq _ _⟩
    | idle =>
      rw [hp] at hadvance
      cases hadvance
    | _ =>
      rw [hp] at hpc
      cases hpc
  | true => ?_
  have hothers : ∀ i ≠ t, inProgress (s.pc i) = false := by
    intro i hi
    by_contra hi'
    exact hi (h.alone i t (Bool.of_not_eq_false hi') hpc)
  -- It goes on, or it returns and what it has reported is on record.
  rcases advance_doing (h.doing t hpc) hadvance with
    ⟨hdoing, hq, rfl⟩ | ⟨rfl, c, retval, m₀, hP, rfl, hlocked⟩
  · rw [append_nil]
    exact .moved hothers (fun hno => by rw [hq] at hno; cases hno) fun _ => hdoing
  -- What a write that has returned has done.
  have hwrote := write_locked_spec c.buf c.src c.len hP.1
  rw [← hlocked] at hwrote
  refine .moved hothers (fun _ => ⟨hwrote.inRing hP.1, ?_⟩) fun hq => by cases hq
  rw [hwrote.queue hP.1, hP.2]
  simp

theorem init_inv (h : init device s) : Inv device s := by
  obtain ⟨hring, hidle, hbefore, hlog⟩ := h
  refine ⟨?_, ?_, ?_⟩
  · intro i j hi
    rw [hidle i] at hi
    cases hi
  · intro _
    exact ⟨hring, by rw [hbefore, hlog]; simp⟩
  intro i hi
  rw [hidle i] at hi
  cases hi

/-- **Calls that do not overlap.** In every run in which each call reads the
head only when no other one is in progress, whenever none is, the ring holds
what was there before and then, call by call in the order in which they have
returned, the bytes that the calls have reported as written. -/
theorem writes_one_after_another (device : Device) (n : Nat) (s : State n)
    (h : ((system device n).restrict Alone).Reachable s)
    (hnone : ∀ t, inProgress (s.pc t) = false) :
    queue device s.mem = s.before ++ s.log.flatten := by
  have hinv : Inv device s := by
    refine System.invariant ?_ ?_ h
    · intro s hinit
      exact init_inv hinit
    intro s l s' hinv hstep
    exact next_inv hinv hstep.1 hstep.2
  exact (hinv.settled hnone).2

/-- The raw device and two tasks. -/
def two_writers : State 2 := ⟨started.mem, fun _ => .idle, [], []⟩

theorem two_writers_init : init dpram_table_raw two_writers :=
  ⟨started_inRing, fun _ => rfl, rfl, rfl⟩

/-- A call that writes a byte. -/
def one_byte (x : BitVec 8) : Call := ⟨fun _ => x, 0, 1⟩

instance (s : State n) (l : Label n) : Decidable (Alone s l) := by
  unfold Alone
  split
  · split <;> infer_instance
  · infer_instance

/-- Two calls that do not overlap. -/
theorem writes_one_after_another_two : ∃ s : State 2,
    ((system dpram_table_raw 2).restrict Alone).Reachable s ∧ s.log = [[1], [2]] ∧
    queue dpram_table_raw s.mem = [1, 2] := by
  obtain ⟨s, hreach, hidle, hbefore, hlog⟩ : ∃ s : State 2,
      ((system dpram_table_raw 2).restrict Alone).Reachable s ∧
      (∀ t, inProgress (s.pc t) = false) ∧ s.before = [] ∧ s.log = [[1], [2]] :=
    System.restrict_exists_of_replay ([.call 0 (one_byte 1), .call 1 (one_byte 2)] ++
      replicate 8 (.step 0) ++ replicate 8 (.step 1)) two_writers_init (by decide +kernel)
  refine ⟨s, hreach, hlog, ?_⟩
  rw [writes_one_after_another dpram_table_raw 2 s hreach hidle, hbefore, hlog]
  rfl

/-- **Lost bytes.** Two calls read the same head; both report that they have
written their byte, and only one of them is in the ring. -/
theorem overlapping_write_is_lost : ∃ s : State 2,
    (system dpram_table_raw 2).Reachable s ∧ (∀ t, inProgress (s.pc t) = false) ∧
    s.before = [] ∧ s.log = [[1], [2]] ∧ queue dpram_table_raw s.mem = [2] ∧
    ∀ order : List (List (BitVec 8)), order.Perm s.log →
      queue dpram_table_raw s.mem ≠ s.before ++ order.flatten := by
  obtain ⟨s, hreach, hidle, hbefore, hlog, hqueue⟩ : ∃ s : State 2,
      (system dpram_table_raw 2).Reachable s ∧ (∀ t, inProgress (s.pc t) = false) ∧
      s.before = [] ∧ s.log = [[1], [2]] ∧ queue dpram_table_raw s.mem = [2] :=
    System.exists_of_replay ([.call 0 (one_byte 1), .call 1 (one_byte 2)] ++
      [.step 0, .step 0, .step 1, .step 1] ++ replicate 6 (.step 0) ++
      replicate 6 (.step 1)) two_writers_init (by decide +kernel)
  refine ⟨s, hreach, hidle, hbefore, hlog, hqueue, ?_⟩
  intro order hperm heq
  have hlen := hperm.flatten.length_eq
  rw [hqueue, hbefore, nil_append] at heq
  rw [← heq, hlog] at hlen
  cases hlen

end Nubernel.Dpram.Writers
