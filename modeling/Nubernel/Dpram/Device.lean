import Nubernel.Dpram.Copy
import Nubernel.Lib.Word

/-! # dpram: devices and the semaphore

The part of `drivers/onedram/dpram/dpram.c` that its read and write
functions share: the devices of `dpram_table`, and the semaphore that the
two processors hand to each other.

A device has two rings in shared memory, one for each direction, each with
a word for its head and one for its tail. What the layout of
`dpram_1.0.0.h` guarantees for the outgoing ring of every device is part of
the type `Device`.

The semaphore and the mailbox are registers, apart from the memory. The
functions below are those of the source when nobody interferes;
`Nubernel.Dpram.Lock` has the steps they are made of.
-/

open Halfword List

namespace Nubernel.Dpram

/-! ## Devices -/

/-- `dpram_device_t`, without the copies of the indices kept for other
functions and without the serial device. -/
structure dpram_device_t where
  in_head_addr : Nat
  in_tail_addr : Nat
  in_buff_addr : Nat
  in_buff_size : Nat
  out_head_addr : Nat
  out_tail_addr : Nat
  out_buff_addr : Nat
  out_buff_size : Nat
  mask_req_ack : BitVec 16
  mask_res_ack : BitVec 16
  mask_send : BitVec 16

/-- A device whose outgoing ring, head and tail lie apart. -/
structure Device extends dpram_device_t where
  out_size_pos : 0 < out_buff_size
  out_size_le : out_buff_size ≤ 32768
  out_words : out_head_addr + 2 ≤ out_tail_addr ∨ out_tail_addr + 2 ≤ out_head_addr
  out_head_ring : out_head_addr + 2 ≤ out_buff_addr ∨
    out_buff_addr + out_buff_size ≤ out_head_addr
  out_tail_ring : out_tail_addr + 2 ≤ out_buff_addr ∨
    out_buff_addr + out_buff_size ≤ out_tail_addr

def INT_MASK_VALID : BitVec 16 := 0x0080
def INT_MASK_COMMAND : BitVec 16 := 0x0040
def INT_MASK_REQ_ACK_R : BitVec 16 := 0x0010
def INT_MASK_RES_ACK_R : BitVec 16 := 0x0004
def INT_MASK_SEND_R : BitVec 16 := 0x0001
def INT_MASK_CMD_SMP_REQ : BitVec 16 := 0x000D

def INT_COMMAND (x : BitVec 16) : BitVec 16 := INT_MASK_VALID ||| INT_MASK_COMMAND ||| x
def INT_NON_COMMAND (x : BitVec 16) : BitVec 16 := INT_MASK_VALID ||| x

/-- `dpram_table[RAW_INDEX]`. -/
def dpram_table_raw : Device where
  out_head_addr := 4100
  out_tail_addr := 4102
  out_buff_addr := 4104
  out_buff_size := 12272
  in_head_addr := 20472
  in_tail_addr := 20474
  in_buff_addr := 20476
  in_buff_size := 12272
  mask_req_ack := INT_MASK_REQ_ACK_R
  mask_res_ack := INT_MASK_RES_ACK_R
  mask_send := INT_MASK_SEND_R
  out_size_pos := by decide
  out_size_le := by decide
  out_words := by decide
  out_head_ring := by decide
  out_tail_ring := by decide

/-! ## The semaphore -/

/-- Shared memory, its registers and the driver's variables. -/
structure Onedram where
  mem : Mem
  /-- `*onedram_sem`: the semaphore is with the application processor. -/
  sem : Bool
  /-- The last mail to the phone. -/
  mailboxBA : BitVec 16
  onedram_lock : Int
  requested_semaphore : Nat
  phone_sync : Bool
  dump_on : Bool

/-- The polling loop of the functions below. The phone may hand the
semaphore over before a poll, `arrives i`; a request is mailed after those
polls that `request` says. -/
def poll (request arrives : Nat → Bool) : Nat → Nat → Onedram → Int × Onedram
  | 0, _, s => (0, s)
  | n + 1, i, s =>
    -- The phone hands it over at any time, also without a request.
    let s := { s with sem := s.sem || arrives i }
    if s.sem then
      (1, s)
    else
      poll request arrives n (i + 1)
        { s with mailboxBA :=
            if request i then INT_COMMAND INT_MASK_CMD_SMP_REQ else s.mailboxBA }

/-- Three requests, each after ten polls. -/
def onedram_get_semaphore_for_init (arrives : Nat → Bool) (s : Onedram) : Int × Onedram :=
  if s.dump_on then (-1, s) else poll (fun i => i % 10 == 9) arrives 30 0 s

/-- One request, after the first of a hundred polls. -/
def onedram_get_semaphore (arrives : Nat → Bool) (s : Onedram) : Int × Onedram :=
  if s.dump_on then
    (-1, s)
  else if !s.phone_sync then
    onedram_get_semaphore_for_init arrives s
  else
    poll (fun i => i == 0) arrives 100 0 s

/-- Whether the lock was taken. -/
def onedram_lock_with_semaphore (s : Onedram) : Bool × Onedram :=
  let s := { s with onedram_lock := s.onedram_lock + 1 }
  -- The lock is incremented before the test, for those who give the semaphore away.
  if s.sem then (true, s) else (false, { s with onedram_lock := s.onedram_lock - 1 })

def onedram_release_lock (s : Onedram) : Onedram :=
  let s := { s with onedram_lock := s.onedram_lock - 1 }
  -- The phone has asked for it in the meantime.
  if s.requested_semaphore ≠ 0 ∧ s.onedram_lock = 0 ∧ s.sem then
    { s with sem := false, requested_semaphore := 0 }
  else
    s

def send_interrupt_to_phone_with_semaphore (irq_mask : BitVec 16) (s : Onedram) : Onedram :=
  if s.dump_on then
    s
  else if s.onedram_lock = 0 then
    -- The semaphore goes with the mail.
    if s.sem then
      { s with sem := false, mailboxBA := irq_mask, requested_semaphore := 0 }
    else
      { s with mailboxBA := irq_mask }
  else
    s

/-! ### What they do to memory and to the semaphore -/

@[simp] theorem lock_mem (s : Onedram) : (onedram_lock_with_semaphore s).2.mem = s.mem := by
  unfold onedram_lock_with_semaphore
  simp only
  split <;> rfl

@[simp] theorem release_lock_mem (s : Onedram) : (onedram_release_lock s).mem = s.mem := by
  unfold onedram_release_lock
  simp only
  split <;> rfl

@[simp] theorem send_interrupt_mem (irq_mask : BitVec 16) (s : Onedram) :
    (send_interrupt_to_phone_with_semaphore irq_mask s).mem = s.mem := by
  unfold send_interrupt_to_phone_with_semaphore
  split
  · rfl
  split
  · split <;> rfl
  · rfl

/-- The phone hands the semaphore over before one of the polls. -/
def handed (s : Onedram) (arrives : Nat → Bool) : Bool :=
  !s.dump_on && (range (if s.phone_sync then 100 else 30)).any arrives

theorem poll_spec (request arrives : Nat → Bool) {n : Nat} (i : Nat) (s : Onedram)
    (h : s.sem = false ∨ 0 < n) :
    ∃ mail, poll request arrives n i s =
      (if s.sem || (range' i n).any arrives then 1 else 0,
        { s with sem := s.sem || (range' i n).any arrives, mailboxBA := mail }) := by
  induction n generalizing i s with
  | zero =>
    obtain ⟨mem, sem, mail, lock, requested, sync, dump⟩ := s
    obtain rfl : sem = false := h.resolve_right (lt_irrefl 0)
    exact ⟨mail, rfl⟩
  | succ n ih =>
    rw [poll, range'_succ, any_cons, ← Bool.or_assoc]
    cases hsem : s.sem || arrives i with
    | true => exact ⟨s.mailboxBA, by simp⟩
    | false =>
      obtain ⟨mail, heq⟩ := ih (i + 1) { s with
        sem := false, mailboxBA := if request i then INT_COMMAND INT_MASK_CMD_SMP_REQ
          else s.mailboxBA } (.inl rfl)
      exact ⟨mail, heq⟩

theorem get_semaphore_spec (arrives : Nat → Bool) (s : Onedram) :
    ∃ mail, (onedram_get_semaphore arrives s).2 =
        { s with sem := s.sem || handed s arrives, mailboxBA := mail } ∧
      ((onedram_get_semaphore arrives s).1 = 0 → (s.sem || handed s arrives) = false) := by
  obtain ⟨mem, sem, mail, lock, requested, sync, dump⟩ := s
  cases dump with
  | true => exact ⟨mail, by simp [onedram_get_semaphore, handed]⟩
  | false => ?_
  cases sync with
  | true =>
    obtain ⟨mail', heq⟩ := poll_spec (fun i => i == 0) arrives 0
      ⟨mem, sem, mail, lock, requested, true, false⟩ (.inr (show 0 < 100 by decide))
    refine ⟨mail', ?_⟩
    simp [onedram_get_semaphore, handed, heq, range_eq_range']
  | false =>
    obtain ⟨mail', heq⟩ := poll_spec (fun i => i % 10 == 9) arrives 0
      ⟨mem, sem, mail, lock, requested, false, false⟩ (.inr (show 0 < 30 by decide))
    refine ⟨mail', ?_⟩
    simp [onedram_get_semaphore, onedram_get_semaphore_for_init, handed, heq, range_eq_range']

end Nubernel.Dpram
