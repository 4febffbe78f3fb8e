import Nubernel.Dpram.Device
import Nubernel.Lib.BoundedQueue

/-! # dpram: writing to the phone

Model of `dpram_write` of `drivers/onedram/dpram/dpram.c`. The ring from
the tail to the head holds what the phone has not read yet; one byte of
it always stays free. A write copies as much as fits, in one or two
parts, and moves the head.

The content of the ring is followed on the tape of `RingBuffer`, on which the
head is as far from the tail as there are unread bytes.
-/

open Halfword List Nat RingBuffer

namespace Nubernel.Dpram

/-! ## The function of the source -/

/-- A copy to the ring: its offset there, its offset in the caller's buffer
and its size. -/
structure Part where
  off : Nat
  start : Nat
  size : Nat

/-- The calls of `WRITE_TO_DPRAM` of a write, for indices below the size of
the ring. -/
def ring_parts (out_buff_size head tail len : Nat) : List Part :=
  -- +++++++++ head ---------- tail ++++++++++
  if head < tail then
    let size := tail - head - 1
    let size := if len > size then size else len
    [⟨head, 0, size⟩]
  -- tail +++++++++++++++ head ---------------
  else if tail = 0 then
    let size := out_buff_size - head - 1
    let size := if len > size then size else len
    [⟨head, 0, size⟩]
  -- ------ tail +++++++++++ head ------------
  else
    let size := out_buff_size - head
    let size := if len > size then size else len
    if len > size then
      let size' := if len - size > tail - 1 then tail - 1 else len - size
      [⟨head, 0, size⟩, ⟨0, size, size'⟩]
    else
      [⟨head, 0, size⟩]

def write_parts (device : Device) : Nat → Nat → Nat → List Part := ring_parts device.out_buff_size

/-- `retval`, the sum of the sizes. -/
def written (parts : List Part) : Nat := (parts.map (·.size)).sum

/-- One call of `WRITE_TO_DPRAM`. -/
def write_part (device : Device) (buf : Mem) (src : Nat) (m : Mem) (p : Part) : Mem :=
  WRITE_TO_DPRAM m (device.out_buff_addr + p.off) buf (src + p.start) p.size

/-- The new head. -/
def new_head (device : Device) (head retval : Nat) : Nat := (head + retval) % device.out_buff_size

/-- What `dpram_write` does between `onedram_lock_with_semaphore` and
`onedram_release_lock`: the number of bytes written, and the memory. -/
def write_locked (device : Device) (buf : Mem) (src len : Nat) (m : Mem) : Nat × Mem :=
  let head := READ_FROM_DPRAM_VERIFY m device.out_head_addr
  let tail := READ_FROM_DPRAM_VERIFY m device.out_tail_addr
  let parts := write_parts device head tail len
  let retval := written parts
  let m := parts.foldl (write_part device buf src) m
  (retval, WRITE_TO_DPRAM_VERIFY m device.out_head_addr (new_head device head retval))

/-- The mail that goes with a write. -/
def write_irq_mask (device : Device) (len retval : Nat) : BitVec 16 :=
  INT_MASK_VALID ||| (if retval > 0 then device.mask_send else 0) |||
    (if len > retval then device.mask_req_ack else 0)

/-- `dpram_write` of the `len` bytes at `src` of the caller's memory `buf`. -/
def dpram_write (device : Device) (arrives : Nat → Bool) (buf : Mem) (src len : Nat)
    (s : Onedram) : Except Errno Nat × Onedram :=
  let (ret, s) := onedram_get_semaphore arrives s
  if ret = 0 then
    (.error .EINTR, s)
  else
    let (locked, s) := onedram_lock_with_semaphore s
    if !locked then
      (.error .EINTR, s)
    else
      let (retval, m) := write_locked device buf src len s.mem
      let s := onedram_release_lock { s with mem := m }
      (.ok retval,
        send_interrupt_to_phone_with_semaphore (write_irq_mask device len retval) s)

/-! ## The content of a ring -/

def head (device : Device) (m : Mem) : Nat := READ_FROM_DPRAM_VERIFY m device.out_head_addr

def tail (device : Device) (m : Mem) : Nat := READ_FROM_DPRAM_VERIFY m device.out_tail_addr

/-- The cells of the ring. -/
def cells (device : Device) (m : Mem) : Nat → BitVec 8 := fun i => m (device.out_buff_addr + i)

/-- The number of unread bytes. -/
def used (device : Device) (m : Mem) : Nat :=
  (head device m + device.out_buff_size - tail device m) % device.out_buff_size

/-- The number of bytes there is room for. -/
def free (device : Device) (m : Mem) : Nat := device.out_buff_size - 1 - used device m

/-- The unread bytes, from the tail to the head. -/
def queue (device : Device) (m : Mem) : List (BitVec 8) :=
  get device.out_buff_size (cells device m) (tail device m) (used device m)

/-- Both indices are in the ring. -/
structure InRing (device : Device) (m : Mem) : Prop where
  head_lt : head device m < device.out_buff_size
  tail_lt : tail device m < device.out_buff_size

/-- The addresses of the part of the ring that is free. -/
def InFree (device : Device) (m : Mem) (a : Nat) : Prop :=
  ∃ i < free device m, a = device.out_buff_addr + (head device m + i) % device.out_buff_size

section content
variable {device : Device} {m : Mem}

theorem used_lt : used device m < device.out_buff_size := mod_lt _ device.out_size_pos

@[simp] theorem length_queue : (queue device m).length = used device m := length_get _ _ _ _

/-- The head is as far from the tail as there are unread bytes. -/
theorem InRing.head_eq (h : InRing device m) :
    head device m = (tail device m + used device m) % device.out_buff_size := by
  have hhead := h.head_lt
  have htail := h.tail_lt
  unfold used
  rw [add_mod_mod, add_sub_of_le (by omega), add_mod_right, mod_eq_of_lt hhead]

/-- The cells from the tail on hold the unread bytes. -/
theorem InRing.holds (h : InRing device m) :
    Holds device.out_buff_size (cells device m) (tail device m) (queue device m) := by
  have hused : used device m ≤ device.out_buff_size := le_of_lt used_lt
  have hget := Holds.of_get (cells device m) (tail device m) hused
  rw [mod_eq_of_lt h.tail_lt] at hget
  exact hget

/-- The addresses of the unread bytes. -/
def Unread (device : Device) (m : Mem) (a : Nat) : Prop :=
  ∃ i < used device m, a = device.out_buff_addr + (tail device m + i) % device.out_buff_size

theorem InRing.not_unread (h : InRing device m) {a : Nat} (hfree : InFree device m a) :
    ¬ Unread device m a := by
  rintro ⟨j, hj, haj⟩
  obtain ⟨i, hi, hai⟩ := hfree
  unfold free at hi
  rw [h.head_eq, mod_add_mod] at hai
  apply mod_ne_of_lt (n := device.out_buff_size) (p := tail device m + j)
    (d := used device m + i - j)
  · omega
  · omega
  rw [show tail device m + j + (used device m + i - j) = tail device m + used device m + i by
    omega]
  omega

/-- The unread bytes, from what the cells hold. -/
theorem queue_of_holds {xs : List (BitVec 8)} (htail : tail device m < device.out_buff_size)
    (hhead : head device m = (tail device m + xs.length) % device.out_buff_size)
    (hlen : xs.length < device.out_buff_size)
    (hxs : Holds device.out_buff_size (cells device m) (tail device m) xs) :
    used device m = xs.length ∧ queue device m = xs := by
  have hused : used device m = xs.length := by
    have hdist := distance_eq (p := tail device m) hlen
    rw [← hhead, mod_eq_of_lt htail] at hdist
    exact hdist
  have hget := hxs.get (le_of_lt hlen)
  rw [mod_eq_of_lt htail] at hget
  unfold queue
  rw [hused]
  exact ⟨rfl, hget⟩

end content

/-! ## What a write does -/

section write
variable {device : Device} {m : Mem}

theorem cells_memcpy (off : Nat) (xs : List (BitVec 8)) :
    cells device (memcpy m (device.out_buff_addr + off) xs) = memcpy (cells device m) off xs := by
  funext i
  unfold cells memcpy
  by_cases h : off ≤ i
  · rw [if_pos h, if_pos (by omega), Nat.add_sub_add_left]
  · rw [if_neg h, if_neg (by omega)]

theorem cells_write_part (buf : Mem) (src : Nat) (p : Part) :
    cells device (write_part device buf src m p) =
      memcpy (cells device m) p.off (slice buf (src + p.start) p.size) := by
  unfold write_part WRITE_TO_DPRAM
  rw [memcpy_eq, cells_memcpy]

/-- The parts of a write, together. -/
structure Parts (device : Device) (head : Nat) (parts : List Part) (n : Nat) : Prop where
  written : written parts = n
  inside : ∀ p ∈ parts, p.off + p.size ≤ device.out_buff_size
  /-- Copying the parts is writing into the ring. -/
  put : ∀ (buf : Mem) (src : Nat) (m : Mem),
    cells device (parts.foldl (write_part device buf src) m) =
      put device.out_buff_size (cells device m) head (slice buf src n)

theorem Parts.one {off size : Nat} (h : off + size ≤ device.out_buff_size) :
    Parts device off [⟨off, 0, size⟩] size where
  written := by simp [Dpram.written]
  inside := by
    intro p hp
    rw [mem_singleton] at hp
    rw [hp]
    exact h
  put := by
    intro buf src m
    rw [foldl_cons, foldl_nil, cells_write_part, put_of_le (by rw [length_slice]; omega), add_zero]

/-- A write up to the end of the ring and from its start. -/
theorem Parts.two {off size size' : Nat} (h : off + size = device.out_buff_size)
    (h' : size' ≤ device.out_buff_size) :
    Parts device off [⟨off, 0, size⟩, ⟨0, size, size'⟩] (size + size') where
  written := by simp [Dpram.written]
  inside := by
    intro p hp
    rw [mem_cons, mem_singleton] at hp
    rcases hp with rfl | rfl
    · exact le_of_eq h
    show 0 + size' ≤ _
    omega
  put := by
    intro buf src m
    rw [foldl_cons, foldl_cons, foldl_nil, cells_write_part, cells_write_part,
      ← slice_append, put_append (by rw [length_slice]; omega), add_zero]

section unread
variable {n h t : Nat}

theorem unread_of_lt (hlt : h < t) (ht : t < n) : (h + n - t) % n = h + n - t :=
  mod_eq_of_lt (by omega)

theorem unread_of_le (hle : t ≤ h) (hh : h < n) : (h + n - t) % n = h - t := by
  rw [show h + n - t = h - t + n by omega, add_mod_right, mod_eq_of_lt (by omega)]

end unread

/-- A write takes as many bytes as there is room for. -/
theorem write_parts_spec {h t : Nat} (len : Nat) (hh : h < device.out_buff_size)
    (ht : t < device.out_buff_size) :
    Parts device h (write_parts device h t len)
      (min len (device.out_buff_size - 1 - (h + device.out_buff_size - t) % device.out_buff_size)) := by
  unfold write_parts ring_parts
  split
  · rename_i hlt
    -- Head before tail: one free part, between them.
    have hmin : (if len > t - h - 1 then t - h - 1 else len) =
        min len (device.out_buff_size - 1 - (h + device.out_buff_size - t)) := by
      split <;> omega
    rw [unread_of_lt hlt ht, ← hmin]
    apply Parts.one
    split <;> omega
  -- The free part wraps: it goes to the end of the ring and on from its start.
  rw [unread_of_le (by omega) hh]
  split
  · rename_i hzero
    have hmin : (if len > device.out_buff_size - h - 1 then device.out_buff_size - h - 1
        else len) = min len (device.out_buff_size - 1 - (h - t)) := by
      split <;> omega
    rw [← hmin]
    apply Parts.one
    split <;> omega
  simp only
  by_cases hlen : len > device.out_buff_size - h
  · rw [if_pos hlen, if_pos hlen]
    have hmin : device.out_buff_size - h +
        (if len - (device.out_buff_size - h) > t - 1 then t - 1
          else len - (device.out_buff_size - h)) =
        min len (device.out_buff_size - 1 - (h - t)) := by
      split <;> omega
    rw [← hmin]
    apply Parts.two
    · omega
    · split <;> omega
  rw [if_neg hlen, if_neg (by omega)]
  have hmin : len = min len (device.out_buff_size - 1 - (h - t)) := by omega
  rw [← hmin]
  apply Parts.one
  omega

/-- What a write has done when it has returned `n`. -/
structure Wrote (device : Device) (buf : Mem) (src len : Nat) (m : Mem) (n : Nat) (m' : Mem) :
    Prop where
  count : n = min len (free device m)
  tail : tail device m' = tail device m
  head : head device m' = (head device m + n) % device.out_buff_size
  cells : ∀ i < device.out_buff_size, cells device m' i =
    put device.out_buff_size (cells device m) (Dpram.head device m) (slice buf src n) i
  frame : ∀ a, (a < device.out_buff_addr ∨ device.out_buff_addr + device.out_buff_size ≤ a) →
    (a < device.out_head_addr ∨ device.out_head_addr + 2 ≤ a) → m' a = m a

theorem foldl_write_part_of_outside (buf : Mem) (src : Nat) {parts : List Part} {a : Nat}
    (hparts : ∀ p ∈ parts, p.off + p.size ≤ device.out_buff_size)
    (ha : a < device.out_buff_addr ∨ device.out_buff_addr + device.out_buff_size ≤ a) :
    parts.foldl (write_part device buf src) m a = m a := by
  induction parts generalizing m with
  | nil => rfl
  | cons p parts ih => ?_
  rw [foldl_cons, ih fun q hq => hparts q (mem_cons_of_mem p hq)]
  have hp := hparts p mem_cons_self
  unfold write_part WRITE_TO_DPRAM
  rw [memcpy_eq, memcpy_slice_apply, if_neg (by omega)]

theorem write_locked_spec (buf : Mem) (src len : Nat) (h : InRing device m) :
    Wrote device buf src len m (write_locked device buf src len m).1
      (write_locked device buf src len m).2 := by
  have hparts := write_parts_spec len h.head_lt h.tail_lt
  have hcount := hparts.written
  have houtside : ∀ a, (a < device.out_buff_addr ∨
      device.out_buff_addr + device.out_buff_size ≤ a) →
      (write_parts device (head device m) (tail device m) len).foldl
        (write_part device buf src) m a = m a :=
    fun a ha => foldl_write_part_of_outside buf src hparts.inside ha
  have hwords := device.out_words
  have hhead_ring := device.out_head_ring
  have htail_ring := device.out_tail_ring
  unfold write_locked
  simp only
  refine ⟨hcount, ?_, ?_, ?_, ?_⟩
  · -- The tail word is neither in the ring nor the head word.
    apply read_verify_congr
    intro a ha ha'
    rw [write_verify_of_outside _ (by omega)]
    exact houtside a (by omega)
  · have hlt : new_head device (head device m)
        (written (write_parts device (head device m) (tail device m) len)) < 65536 := by
      have hmod := mod_lt (head device m +
        written (write_parts device (head device m) (tail device m) len)) device.out_size_pos
      have hsize := device.out_size_le
      unfold new_head
      omega
    exact read_write_verify _ _ hlt
  · intro i hi
    -- The head word is not in the ring.
    have hput := hparts.put buf src m
    unfold cells at hput ⊢
    rw [write_verify_of_outside _ (by omega)]
    have hi' := congrFun hput i
    rw [← hcount] at hi'
    exact hi'
  intro a ha ha'
  rw [write_verify_of_outside _ ha']
  exact houtside a ha

variable {buf : Mem} {src len n : Nat} {m' : Mem}

theorem Wrote.count_le (w : Wrote device buf src len m n m') : n ≤ free device m := by
  rw [w.count]
  exact min_le_right _ _

section
variable (w : Wrote device buf src len m n m') (h : InRing device m)
include w h

theorem Wrote.inRing :
    InRing device m' where
  head_lt := by
    rw [w.head]
    exact mod_lt _ device.out_size_pos
  tail_lt := by
    rw [w.tail]
    exact h.tail_lt

/-- The bytes written are appended to the unread ones. -/
theorem Wrote.queue :
    Dpram.queue device m' = Dpram.queue device m ++ slice buf src n := by
  have hn := w.count_le
  have hused : used device m < device.out_buff_size := used_lt
  unfold free at hn
  have hlen : (Dpram.queue device m ++ slice buf src n).length = used device m + n := by
    rw [length_append, length_queue, length_slice]
  -- On the tape the write starts where the unread bytes end.
  have hold : Holds device.out_buff_size (put device.out_buff_size (Dpram.cells device m)
      ((Dpram.tail device m + used device m) % device.out_buff_size) (slice buf src n))
      (Dpram.tail device m) (Dpram.queue device m) :=
    h.holds.put_frame (by rw [length_queue]) (by rw [length_slice]; omega)
  have hroom : (slice buf src n).length ≤ device.out_buff_size := by
    rw [length_slice]
    omega
  have hnew := Holds.put (Dpram.cells device m) (Dpram.tail device m + used device m) hroom
  rw [← h.head_eq] at hold hnew
  rw [← length_queue] at hnew
  have hboth := Holds.append_iff.mpr ⟨hold, hnew⟩
  refine (queue_of_holds (w.inRing h).tail_lt ?_ (by omega) ?_).2
  · rw [w.head, w.tail, hlen, h.head_eq, mod_add_mod, add_assoc]
  rw [w.tail]
  exact hboth.congr device.out_size_pos w.cells

/-- The only bytes that change are free ones and those of the head. -/
theorem Wrote.changed {a : Nat} (hne : m' a ≠ m a) :
    InFree device m a ∨ (device.out_head_addr ≤ a ∧ a < device.out_head_addr + 2) := by
  by_cases hword : device.out_head_addr ≤ a ∧ a < device.out_head_addr + 2
  · exact Or.inr hword
  left
  -- What changes outside of the ring is the head.
  have hring : device.out_buff_addr ≤ a ∧ a < device.out_buff_addr + device.out_buff_size := by
    by_contra hout
    exact hne (w.frame a (by omega) (by omega))
  obtain ⟨j, rfl⟩ : ∃ j, a = device.out_buff_addr + j := ⟨a - device.out_buff_addr, by omega⟩
  have hj : j < device.out_buff_size := by omega
  have hn := w.count_le
  have hcell : put device.out_buff_size (Dpram.cells device m)
      (Dpram.head device m % device.out_buff_size) (slice buf src n) j ≠
      Dpram.cells device m j := by
    rw [mod_eq_of_lt h.head_lt, ← w.cells j hj]
    exact hne
  obtain ⟨i, hi, hji⟩ := exists_of_put_ne (by
    rw [length_slice]
    unfold free at hn
    omega) hj hcell
  rw [length_slice] at hi
  exact ⟨i, by omega, by rw [hji]⟩

end

end write

/-! ## The phone -/

/-- The phone reads up to `k` bytes and moves the tail. -/
def drain (device : Device) (k : Nat) (m : Mem) : List (BitVec 8) × Mem :=
  let n := min k (used device m)
  (get device.out_buff_size (cells device m) (tail device m) n,
    store16 m device.out_tail_addr
      (BitVec.ofNat 16 ((tail device m + n) % device.out_buff_size)))

section phone
variable {device : Device} {m : Mem}

theorem drain_head (k : Nat) : head device (drain device k m).2 = head device m := by
  have hwords := device.out_words
  apply read_verify_congr
  intro a ha ha'
  exact store16_of_ne _ (by omega) (by omega)

theorem drain_tail (k : Nat) : tail device (drain device k m).2 =
    (tail device m + min k (used device m)) % device.out_buff_size := by
  have hmod := mod_lt (tail device m + min k (used device m)) device.out_size_pos
  have hsize := device.out_size_le
  have hread : tail device (drain device k m).2 = _ := read_verify_eq _ _
  rw [hread]
  unfold drain
  rw [load16_store16, BitVec.toNat_ofNat, mod_eq_of_lt (by omega)]

theorem drain_cells (k : Nat) {i : Nat} (hi : i < device.out_buff_size) :
    cells device (drain device k m).2 i = cells device m i := by
  have hring := device.out_tail_ring
  exact store16_of_ne _ (by omega) (by omega)

section
variable (k : Nat) (h : InRing device m)
include k h

theorem drain_inRing : InRing device (drain device k m).2 where
  head_lt := by
    rw [drain_head]
    exact h.head_lt
  tail_lt := by
    rw [drain_tail]
    exact mod_lt _ device.out_size_pos

/-- The unread bytes, split where the phone stops reading. -/
theorem drain_split :
    Holds device.out_buff_size (cells device m) (tail device m) ((queue device m).take k) ∧
    Holds device.out_buff_size (cells device m) (tail device m + min k (used device m))
      ((queue device m).drop k) := by
  have hholds := h.holds
  rw [← take_append_drop k (queue device m), Holds.append_iff, length_take, length_queue] at hholds
  exact hholds

/-- The phone reads the unread bytes in order. -/
theorem drain_fst :
    (drain device k m).1 = (queue device m).take k := by
  have hused : used device m < device.out_buff_size := used_lt
  have hlen : ((queue device m).take k).length = min k (used device m) := by
    rw [length_take, length_queue]
  have hget := (drain_split k h).1.get (by omega)
  rw [mod_eq_of_lt h.tail_lt, hlen] at hget
  exact hget

/-- The rest is unread. -/
theorem drain_queue :
    queue device (drain device k m).2 = (queue device m).drop k := by
  have hused : used device m < device.out_buff_size := used_lt
  have hlen : ((queue device m).drop k).length = used device m - k := by
    rw [length_drop, length_queue]
  refine (queue_of_holds (drain_inRing k h).tail_lt ?_ (by omega) ?_).2
  · rw [drain_head, drain_tail, hlen, mod_add_mod, h.head_eq]
    congr 1
    omega
  rw [drain_tail]
  exact ((drain_split k h).2.mod).congr device.out_size_pos fun i hi => drain_cells k hi

end

end phone

/-! ## Calls with and without the semaphore -/

/-- The semaphore stays here after a write that had it. -/
def kept (s : Onedram) : Bool :=
  s.onedram_lock != 0 || s.dump_on && s.requested_semaphore == 0

section write
variable (device : Device) (arrives : Nat → Bool) (buf : Mem) (src len : Nat) {s : Onedram}

/-- Without the semaphore nothing is written. -/
theorem dpram_write_refused (h : (s.sem || handed s arrives) = false) :
    ∃ t, dpram_write device arrives buf src len s = (.error .EINTR, t) ∧
      t.mem = s.mem := by
  obtain ⟨mail, hget, _⟩ := get_semaphore_spec arrives s
  rw [h] at hget
  unfold dpram_write
  generalize onedram_get_semaphore arrives s = g at *
  obtain ⟨ret, t⟩ := g
  simp only at hget
  subst hget
  simp only
  split
  · exact ⟨_, rfl, rfl⟩
  · exact ⟨_, rfl, rfl⟩

/-- With the semaphore the write does what it does while it has the lock. -/
theorem dpram_write_granted (h : (s.sem || handed s arrives) = true) :
    ∃ t, dpram_write device arrives buf src len s =
        (.ok (write_locked device buf src len s.mem).1, t) ∧
      t.mem = (write_locked device buf src len s.mem).2 ∧ t.sem = kept s ∧
      t.onedram_lock = s.onedram_lock ∧ t.dump_on = s.dump_on ∧ t.phone_sync = s.phone_sync ∧
      (t.requested_semaphore = s.requested_semaphore ∨ t.requested_semaphore = 0) := by
  obtain ⟨mail, hget, hzero⟩ := get_semaphore_spec arrives s
  rw [h] at hget hzero
  unfold dpram_write
  generalize onedram_get_semaphore arrives s = g at *
  obtain ⟨ret, t⟩ := g
  simp only at hget hzero
  subst hget
  have hret : ret ≠ 0 := fun hret => by cases hzero hret
  simp only [if_neg hret, onedram_lock_with_semaphore, if_true, Bool.not_true, Bool.false_eq_true,
    if_false]
  refine ⟨_, rfl, by simp, ?_⟩
  obtain ⟨mem, sem, mail', lock, requested, sync, dump⟩ := s
  unfold onedram_release_lock send_interrupt_to_phone_with_semaphore kept
  by_cases hlock : lock = 0 <;> by_cases hrequested : requested = 0 <;> cases dump <;>
    simp [hlock, hrequested]

end write

/-! ## The device as a queue -/

/-- What the two processors do with a ring. -/
inductive RingOp where
  /-- `dpram_write(device, buf, len)`, with the semaphore held. -/
  | write (buf : Mem) (src len : Nat)
  /-- The phone reads up to `k` bytes. -/
  | drain (k : Nat)

/-- What they see. -/
inductive RingEvent where
  | wrote (ret : Except Errno Nat)
  | drained (xs : List (BitVec 8))

def ring_step (device : Device) (s : Onedram) : RingOp → RingEvent × Onedram
  | .write buf src len =>
    let (ret, s) := dpram_write device (fun _ => false) buf src len { s with sem := true }
    (.wrote ret, s)
  | .drain k =>
    let (xs, m) := drain device k s.mem
    (.drained xs, { s with mem := m })

/-- The operation of a queue that an operation is. -/
def RingOp.abs : RingOp → BoundedQueue.Op (BitVec 8)
  | .write buf src len => .write (slice buf src len)
  | .drain k => .drain k

/-- What is seen of the operation of a queue. -/
def RingEvent.rep : BoundedQueue.Event (BitVec 8) → RingEvent
  | .wrote n => .wrote (.ok n)
  | .drained xs => .drained xs

/-- What a write does to the ring, and what its caller sees. -/
theorem ring_step_write (device : Device) (s : Onedram) (buf : Mem) (src len : Nat) :
    (ring_step device s (.write buf src len)).1 =
        .wrote (.ok (write_locked device buf src len s.mem).1) ∧
      (ring_step device s (.write buf src len)).2.mem =
        (write_locked device buf src len s.mem).2 := by
  obtain ⟨t, heq, hmem, _⟩ := dpram_write_granted device (fun _ => false) buf src len
    (s := { s with sem := true }) rfl
  simp only [ring_step, heq]
  exact ⟨trivial, hmem⟩

theorem ring_simulation (device : Device) :
    BoundedQueue.Simulation (device.out_buff_size - 1) (ring_step device)
      (fun s => InRing device s.mem) (fun s => queue device s.mem) RingOp.abs RingEvent.rep where
  inv := by
    intro s op h
    cases op with
    | write buf src len =>
      rw [(ring_step_write device s buf src len).2]
      exact (write_locked_spec buf src len h).inRing h
    | drain k => exact drain_inRing k h
  event := by
    intro s op h
    cases op with
    | write buf src len =>
      have hcount := (write_locked_spec buf src len h).count
      unfold free at hcount
      rw [(ring_step_write device s buf src len).1, hcount]
      show RingEvent.wrote _ = RingEvent.wrote (.ok _)
      rw [length_slice, length_queue]
    | drain k =>
      show RingEvent.drained (Dpram.drain device k s.mem).1 = RingEvent.drained _
      rw [drain_fst k h]
  view := by
    intro s op h
    cases op with
    | write buf src len =>
      have hw := write_locked_spec buf src len h
      have hcount := hw.count
      unfold free at hcount
      rw [(ring_step_write device s buf src len).2, hw.queue h]
      show queue device s.mem ++ _ = queue device s.mem ++ _
      rw [take_slice, length_queue, hcount, min_comm]
    | drain k => exact drain_queue k h

/-- **A device is a byte queue.** Over any sequence of writes, each with the
semaphore held, and of reads of the phone, the results and the unread bytes
are those of a queue for one byte less than the ring has; and a write that
follows changes free bytes of the ring and the head, and no unread byte. -/
theorem dpram_write_is_queue (device : Device) (s : Onedram) (h : InRing device s.mem)
    (ops : List RingOp) :
    (BoundedQueue.run (ring_step device) s ops).1 =
        (BoundedQueue.run (BoundedQueue.step (device.out_buff_size - 1)) (queue device s.mem)
          (ops.map RingOp.abs)).1.map RingEvent.rep ∧
      queue device (BoundedQueue.run (ring_step device) s ops).2.mem =
        (BoundedQueue.run (BoundedQueue.step (device.out_buff_size - 1)) (queue device s.mem)
          (ops.map RingOp.abs)).2 ∧
      ∀ (buf : Mem) (src len a : Nat),
        (ring_step device (BoundedQueue.run (ring_step device) s ops).2
            (.write buf src len)).2.mem a ≠
          (BoundedQueue.run (ring_step device) s ops).2.mem a →
        ¬ Unread device (BoundedQueue.run (ring_step device) s ops).2.mem a ∧
        (InFree device (BoundedQueue.run (ring_step device) s ops).2.mem a ∨
          (device.out_head_addr ≤ a ∧ a < device.out_head_addr + 2)) := by
  have hrun := (ring_simulation device).run_eq h ops
  refine ⟨hrun.1, hrun.2, ?_⟩
  have hring := (ring_simulation device).inv_run h ops
  generalize (BoundedQueue.run (ring_step device) s ops).2 = t at hring
  intro buf src len a hne
  have hchanged : (write_locked device buf src len t.mem).2 a ≠ t.mem a := by
    rw [← (ring_step_write device t buf src len).2]
    exact hne
  have hplace := (write_locked_spec buf src len hring).changed hring hchanged
  refine ⟨?_, hplace⟩
  rcases hplace with hfree | hword
  · exact hring.not_unread hfree
  -- The head is not in the ring.
  rintro ⟨i, hi, rfl⟩
  have hmod := mod_lt (tail device t.mem + i) device.out_size_pos
  have hhead := device.out_head_ring
  omega

/-- A driver that has just been started. -/
def started : Onedram where
  mem := fun _ => 0
  sem := true
  mailboxBA := 0
  onedram_lock := 0
  requested_semaphore := 0
  phone_sync := true
  dump_on := false

theorem started_inRing : InRing dpram_table_raw started.mem where
  head_lt := by decide
  tail_lt := by decide

/-- Five bytes from an odd address are written, the phone reads three of
them, and two more are written. -/
theorem dpram_write_is_queue_raw :
    InRing dpram_table_raw started.mem ∧
      (BoundedQueue.run (ring_step dpram_table_raw) started
          [.write (fun i => BitVec.ofNat 8 i) 1 5, .drain 3,
            .write (fun i => BitVec.ofNat 8 i) 8 2]).1 =
        [.wrote (.ok 5), .drained [1, 2, 3], .wrote (.ok 2)] :=
  ⟨started_inRing, (dpram_write_is_queue dpram_table_raw started started_inRing _).1.trans rfl⟩

/-! ## What the tty layer is told -/

/-- What the tty layer reads of a device: the indices of the last write. -/
structure Saved where
  out_buff_size : Nat
  out_head_saved : Nat
  out_tail_saved : Nat

def dpram_tty_write_room : Option Saved → Nat
  | some ⟨out_buff_size, head, tail⟩ =>
    if head < tail then tail - head - 1 else out_buff_size + tail - head - 1
  | none => 0

def dpram_tty_chars_in_buffer : Option Saved → Nat
  | some ⟨out_buff_size, head, tail⟩ =>
    if head > tail then head - tail - 1 else out_buff_size - tail + head
  | none => 0

theorem written_ring_parts {n h t : Nat} (len : Nat) (hh : h < n) (ht : t < n) :
    written (ring_parts n h t len) = min len (n - 1 - (h + n - t) % n) := by
  unfold ring_parts
  split
  · rename_i hlt
    rw [unread_of_lt hlt ht, written, map_singleton, sum_singleton]
    simp only
    split <;> omega
  rw [unread_of_le (by omega) hh]
  split
  · rw [written, map_singleton, sum_singleton]
    simp only
    split <;> omega
  -- the part up to the end of the ring, and the one from its start
  simp only [written]
  repeat' split
  all_goals simp only [map_cons, map_nil, sum_cons, sum_nil]; omega

/-- **The counts of the tty layer**, for a ring of any size and any indices in it: the room
is what is not unread, one byte apart, and what a write takes. The unread bytes are
counted right if and only if the head is before the tail. -/
theorem tty_counts (n head tail : Nat) (hhead : head < n) (htail : tail < n) :
    (dpram_tty_chars_in_buffer (some ⟨n, head, tail⟩) = (head + n - tail) % n ↔ head < tail) ∧
    dpram_tty_write_room (some ⟨n, head, tail⟩) = n - 1 - (head + n - tail) % n ∧
    ∀ len, written (ring_parts n head tail len) =
      min len (dpram_tty_write_room (some ⟨n, head, tail⟩)) := by
  have hroom : dpram_tty_write_room (some ⟨n, head, tail⟩) = n - 1 - (head + n - tail) % n := by
    rw [dpram_tty_write_room]
    split
    · rename_i hlt
      rw [unread_of_lt hlt htail]
      omega
    rw [unread_of_le (by omega) hhead]
    omega
  refine ⟨?_, hroom, ?_⟩
  · rw [dpram_tty_chars_in_buffer]
    rcases Nat.lt_or_ge head tail with hlt | hle
    · rw [unread_of_lt hlt htail, if_neg (by omega)]
      omega
    -- One short behind the tail, and the whole ring at the tail.
    rw [unread_of_le hle hhead]
    split <;> omega
  intro len
  rw [hroom]
  exact written_ring_parts len hhead htail

theorem tty_counts_wrapped : dpram_tty_chars_in_buffer (some ⟨8, 2, 5⟩) = 5 ∧
    dpram_tty_write_room (some ⟨8, 2, 5⟩) = 2 :=
  ⟨(tty_counts 8 2 5 (by decide) (by decide)).1.mpr (by decide),
    (tty_counts 8 2 5 (by decide) (by decide)).2.1⟩

/-- In the ring of `dpram_table_raw`: no unread byte counts as a full ring, one as none. -/
theorem chars_in_buffer_wrong :
    let n := dpram_table_raw.out_buff_size
    (0 + n - 0) % n = 0 ∧ dpram_tty_chars_in_buffer (some ⟨n, 0, 0⟩) = n ∧
    (1 + n - 0) % n = 1 ∧ dpram_tty_chars_in_buffer (some ⟨n, 1, 0⟩) = 0 := by
  decide

end Nubernel.Dpram
