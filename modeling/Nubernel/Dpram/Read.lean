import Nubernel.Dpram.Device

/-! # dpram: reading frames from the phone

Model of `dpram_read_raw` of `drivers/onedram/dpram/dpram.c`. The ring of
the raw device has frames that the phone has written; the payload of each is
handed to the terminal of its channel.

The length of a frame is what its header says. It is turned into a
`size_t` before it is checked, `read_offset` is a `u16`, and of the two
branches that hand the payload over only one reduces the offset modulo the
size of the ring; the model has the arithmetic of the source.

Every access to shared memory is logged.
-/

open Halfword List RingBuffer

namespace Nubernel.Dpram

/-! ## The functions of the source -/

/-- A device whose incoming ring consists of halfwords. -/
structure InDevice extends dpram_device_t where
  in_size_pos : 0 < in_buff_size
  in_size_le : in_buff_size ≤ 32768
  in_addr_even : in_buff_addr % 2 = 0
  in_size_even : in_buff_size % 2 = 0

/-- An access to shared memory. -/
inductive Access where
  /-- The head or the tail. -/
  | word (addr : Nat)
  /-- The halfword of a byte that is read. -/
  | byte (addr : Nat)
  /-- Bytes handed to `tty_insert_flip_string`. -/
  | tty (addr len : Nat)
deriving DecidableEq

/-- An entry of `pdp_table`; `opened` if it has a terminal and a `refcount`. -/
structure PdpDev where
  id : BitVec 8
  opened : Bool

def pdp_get_dev (pdp_table : List (Option PdpDev)) (id : BitVec 8) : Option PdpDev :=
  pdp_table.reduceOption.find? fun dev => dev.id == id

/-- Conversion to `u16`. -/
def u16 (x : Int) : Nat := (x % 65536).toNat

/-- The address of a byte of the ring,
`in_buff_addr + ((u16)(tail + read_offset) % in_buff_size)`. -/
def ring_addr (device : InDevice) (tail read_offset : Nat) : Nat :=
  device.in_buff_addr + u16 (tail + read_offset : Nat) % device.in_buff_size

/-- `READ_FROM_DPRAM(&ch, addr, sizeof(ch))`. -/
def READ_FROM_DPRAM (m : Mem) (addr : Nat) : BitVec 8 := _memcpy (fun _ => 0) 0 m addr 1 0

/-- What the call knows besides the ring. -/
structure Env where
  pdp_table : List (Option PdpDev)
  /-- How many bytes the terminal takes, call by call. -/
  takes : Nat → Nat

/-- The payload of a frame is handed over: what is accessed, and `ret`. -/
def insert_payload (device : InDevice) (env : Env) (dev : PdpDev) (tail read_offset len i : Nat) :
    List Access × Int :=
  if dev.opened then
    let off := u16 (tail + read_offset : Nat) % device.in_buff_size
    -- The sum of the `int`s is compared as an unsigned one and may wrap.
    if add32 off len < device.in_buff_size then
      ([.tty (device.in_buff_addr + off) len], toInt32 (min (env.takes (2 * i)) len : Nat))
    else
      -- The part up to the end of the ring; the rest is at its start.
      let pre_data_size := u16 (device.in_buff_size - (tail + read_offset : Nat))
      let rest := sub32 len pre_data_size
      ([.tty (device.in_buff_addr + tail + read_offset) pre_data_size,
          .tty device.in_buff_addr rest],
        toInt32 (min (env.takes (2 * i)) pre_data_size + min (env.takes (2 * i + 1)) rest : Nat))
  else
    ([], toInt32 len)

/-- How the body of the loop ends. -/
inductive FrameEnd where
  /-- The data is dropped. -/
  | drop
  /-- The next `read_offset`, and `ret`. -/
  | next (read_offset : Nat) (ret : Int)

/-- A run of the loop body: its accesses and its end. -/
structure FrameResult where
  log : List Access
  out : FrameEnd

/-- The body of the loop, for frame number `i`. -/
def read_frame (device : InDevice) (env : Env) (m : Mem) (tail read_offset i : Nat) :
    FrameResult :=
  let a0 := ring_addr device tail read_offset
  if READ_FROM_DPRAM m a0 ≠ 0x7f then
    ⟨[.byte a0], .drop⟩
  else
    let ro := u16 (read_offset + 1)
    let a1 := ring_addr device tail ro
    let len_low := READ_FROM_DPRAM m a1
    let ro := u16 (ro + 1)
    let a2 := ring_addr device tail ro
    let len_high := READ_FROM_DPRAM m a2
    let ro := u16 (ro + 1)
    let a3 := ring_addr device tail ro
    let id := READ_FROM_DPRAM m a3
    let ro := u16 (ro + 1)
    let a4 := ring_addr device tail ro
    let ro := u16 (ro + 1)
    let log := [.byte a0, .byte a1, .byte a2, .byte a3, .byte a4]
    let hdr_len := len_high.toNat * 256 + len_low.toNat
    let len := sub32 hdr_len 4
    -- `len <= 0`, but `len` is unsigned.
    if len = 0 then
      ⟨log, .drop⟩
    else
      match pdp_get_dev env.pdp_table id with
      | none => ⟨log, .drop⟩
      | some dev =>
        let (inserted, ret) := insert_payload device env dev tail ro len i
        if ret = 0 then
          ⟨log ++ inserted, .drop⟩
        else
          let ro := u16 (ro + ret)
          let a5 := ring_addr device tail ro
          let log := log ++ inserted ++ [.byte a5]
          if READ_FROM_DPRAM m a5 = 0x7e then
            ⟨log, .next (u16 (ro + 1)) ret⟩
          else
            ⟨log, .drop⟩

/-- How the loop ends. -/
inductive LoopEnd where
  | drop
  /-- `read_offset` and `retval`. -/
  | done (read_offset : Nat) (retval : Int)
  /-- The loop has not ended. -/
  | running

/-- A run of the loop: its accesses and its end. -/
structure LoopResult where
  log : List Access
  out : LoopEnd

/-- The loop, for at most `fuel` rounds. -/
def read_loop (device : InDevice) (env : Env) (m : Mem) (tail : Nat) :
    (fuel i read_offset : Nat) → (size retval : Int) → LoopResult
  | 0, _, _, _, _ => ⟨[], .running⟩
  | fuel + 1, i, read_offset, size, retval =>
    if size = 0 then
      ⟨[], .done read_offset retval⟩
    else
      let r := read_frame device env m tail read_offset i
      match r.out with
      | .drop => ⟨r.log, .drop⟩
      | .next read_offset ret =>
        let size := toInt32 (size - (ret + 4 + 2))
        let retval := toInt32 (retval + (ret + 4 + 2))
        -- The loop is left by `break`, with what it has.
        if size < 0 then
          ⟨r.log, .done read_offset retval⟩
        else
          let rest := read_loop device env m tail fuel (i + 1) read_offset size retval
          ⟨r.log ++ rest.log, rest.out⟩

def dpram_drop_data (device : InDevice) (s : Onedram) : Onedram :=
  if s.sem then
    let head := READ_FROM_DPRAM_VERIFY s.mem device.in_head_addr
    { s with mem := WRITE_TO_DPRAM_VERIFY s.mem device.in_tail_addr head }
  else
    s

/-- The interrupt at the end, if the phone asked for an acknowledgement. -/
def read_ack (device : InDevice) (non_cmd : BitVec 16) (s : Onedram) : Onedram :=
  if non_cmd &&& device.mask_req_ack ≠ 0 then
    send_interrupt_to_phone_with_semaphore (INT_NON_COMMAND device.mask_res_ack) s
  else
    s

/-- The number of unread bytes, for different indices. -/
def unread (device : InDevice) (head tail : Nat) : Nat :=
  if head > tail then head - tail else device.in_buff_size - tail + head

/-- How `dpram_read_raw` ends; `ret` is `none` if it does not. -/
structure ReadResult where
  ret : Option Int
  state : Onedram
  log : List Access

/-- `dpram_read_raw`; its loop is run as often as there are unread bytes and
once more. -/
def dpram_read_raw (device : InDevice) (env : Env) (non_cmd : BitVec 16) (s : Onedram) :
    ReadResult :=
  let (locked, s) := onedram_lock_with_semaphore s
  if !locked then
    ⟨some (-4), s, []⟩
  else
    let head := READ_FROM_DPRAM_VERIFY s.mem device.in_head_addr
    let tail := READ_FROM_DPRAM_VERIFY s.mem device.in_tail_addr
    let words := [.word device.in_head_addr, .word device.in_tail_addr]
    if head ≠ tail then
      let size := unread device head tail
      let r := read_loop device env s.mem tail (size + 1) 0 0 size 0
      match r.out with
      -- All of the data is skipped: the tail is set to the head.
      | .drop =>
        ⟨some (-1), onedram_release_lock (dpram_drop_data device s), words ++ r.log ++ words⟩
      | .done read_offset retval =>
        let up_tail := u16 ((tail + read_offset) % device.in_buff_size : Nat)
        let s := { s with mem := WRITE_TO_DPRAM_VERIFY s.mem device.in_tail_addr up_tail }
        ⟨some retval, read_ack device non_cmd (onedram_release_lock s),
          words ++ r.log ++ [.word device.in_tail_addr]⟩
      | .running => ⟨none, s, words ++ r.log⟩
    else
      ⟨some 0, read_ack device non_cmd (onedram_release_lock s), words⟩

/-! ## Accesses -/

/-- The access is to one of the indices, or its bytes are in the ring. -/
def Access.Inside (device : InDevice) : Access → Prop
  | .word addr => addr = device.in_head_addr ∨ addr = device.in_tail_addr
  | .byte addr => device.in_buff_addr ≤ addr - addr % 2 ∧
      addr - addr % 2 + 2 ≤ device.in_buff_addr + device.in_buff_size
  | .tty addr len => device.in_buff_addr ≤ addr ∧
      addr + len ≤ device.in_buff_addr + device.in_buff_size

theorem u16_eq {x : Nat} (h : x < 65536) : u16 x = x := by
  unfold u16
  omega

theorem u16_add (x y : Int) : u16 (u16 x + y) = u16 (x + y) := by
  unfold u16
  omega

/-! ## Frames -/

section frames
variable (device : InDevice) (env : Env) (m : Mem) (tail : Nat)

/-- The byte that is `k` bytes behind the tail. -/
def byte_at (k : Nat) : BitVec 8 := READ_FROM_DPRAM m (ring_addr device tail k)

/-- `ro` bytes behind the tail there is a header with a payload and a known channel. -/
structure Header (ro hdr_len : Nat) (dev : PdpDev) : Prop where
  start : byte_at device m tail ro = 0x7f
  len : hdr_len = (byte_at device m tail (ro + 2)).toNat * 256 +
    (byte_at device m tail (ro + 1)).toNat
  ne : hdr_len ≠ 4
  dev : pdp_get_dev env.pdp_table (byte_at device m tail (ro + 3)) = some dev

/-- The payload of a header length, looked for at an offset that is not yet reduced, is
in the ring. Behind the end of the ring it must not wrap around. -/
def PayloadIn (off hdr_len : Nat) : Prop :=
  4 ≤ hdr_len ∧
    if off ≤ device.in_buff_size then off + (hdr_len - 4) ≤ 2 * device.in_buff_size
    else off % device.in_buff_size + (hdr_len - 4) < device.in_buff_size

/-- How many bytes of the payload are taken: by the terminal, in one or two parts, or
unseen, without one. -/
def taken (dev : PdpDev) (off hdr_len i : Nat) : Int :=
  if dev.opened then
    if off % device.in_buff_size + (hdr_len - 4) < device.in_buff_size then
      (min (env.takes (2 * i)) (hdr_len - 4) : Nat)
    else
      (min (env.takes (2 * i)) (device.in_buff_size - off) +
        min (env.takes (2 * i + 1)) (hdr_len - 4 - (device.in_buff_size - off)) : Nat)
  else
    hdr_len - 4

/-- The frame `ro` bytes behind the tail, if there is one, is in the ring. -/
def FrameIn (ro : Nat) : Prop :=
  ∀ hdr_len dev, Header device env m tail ro hdr_len dev → dev.opened = true →
    PayloadIn device (tail + ro + 5) hdr_len

/-- Frame `i` is complete, and the next one begins at `ro'`. -/
def Complete (i ro ro' : Nat) : Prop :=
  ∃ hdr_len dev, Header device env m tail ro hdr_len dev ∧
    taken device env dev (tail + ro + 5) hdr_len i ≠ 0 ∧
    (ro' : Int) = ro + (taken device env dev (tail + ro + 5) hdr_len i + 6) ∧
    byte_at device m tail (ro' - 1) = 0x7e

/-- From frame `i` on, all frames that begin among the unread bytes are in the ring. -/
inductive FramesIn (unread : Nat) : Nat → Nat → Prop where
  | intro {i ro : Nat} (this : FrameIn device env m tail ro)
    (rest : ∀ ro', Complete device env m tail i ro ro' → ro' < unread →
      FramesIn unread (i + 1) ro') : FramesIn unread i ro

end frames

section accesses
variable {device : InDevice} {env : Env} {m : Mem} {tail : Nat}

/-- Bytes that are read are in the ring, with the halfwords they are part of. -/
theorem ring_addr_inside (read_offset : Nat) :
    (Access.byte (ring_addr device tail read_offset)).Inside device := by
  have hmod := Nat.mod_lt (u16 (tail + read_offset : Nat)) device.in_size_pos
  have haddr := device.in_addr_even
  have hsize := device.in_size_even
  unfold ring_addr
  unfold Access.Inside
  omega

theorem ring_addr_u16 (x : Int) {k : Nat} (h : x = k) :
    ring_addr device tail (u16 x) = ring_addr device tail k := by
  have hu : u16 (tail + u16 x : Nat) = u16 (tail + k : Nat) := by
    unfold u16
    omega
  unfold ring_addr
  rw [hu]

variable {dev : PdpDev} {ro : Nat}

/-- Where a payload is looked for, the wrapping of `u16` makes no difference. -/
theorem u16_mod {off : Nat} (h : off ≤ 2 * device.in_buff_size + 3) :
    u16 off % device.in_buff_size = off % device.in_buff_size := by
  have hle := device.in_size_le
  have heven := device.in_size_even
  rcases Nat.lt_or_ge off 65536 with hlt | hge
  · rw [u16_eq hlt]
  -- Only a ring of 32768 bytes is that long, and its size divides 65536.
  have hsize : device.in_buff_size = 32768 := by omega
  unfold u16
  rw [hsize]
  omega

theorem mod_of_le {a n : Nat} (hn : 0 < n) (h : a ≤ n) :
    (a < n ∧ a % n = a) ∨ (a = n ∧ a % n = 0) := by
  rcases Nat.lt_or_eq_of_le h with hlt | rfl
  · exact .inl ⟨hlt, Nat.mod_eq_of_lt hlt⟩
  · exact .inr ⟨rfl, Nat.mod_self a⟩

/-- A header length that has wrapped: no range of that length is in the ring. -/
theorem insert_payload_wrapped {hdr_len : Nat} (i : Nat) (hopened : dev.opened = true)
    (hsmall : hdr_len < 4) :
    ¬∀ a ∈ (insert_payload device env dev tail ro (sub32 hdr_len 4) i).1, a.Inside device := by
  have hle := device.in_size_le
  have hwrap : sub32 hdr_len 4 = 2 ^ 32 - (4 - hdr_len) := by
    unfold sub32
    omega
  have hpre : u16 (device.in_buff_size - (tail + ro : Nat)) < 65536 := by
    unfold u16
    omega
  unfold insert_payload
  simp only [hopened, if_true]
  split
  · simp only [forall_mem_singleton, Access.Inside]
    omega
  simp only [forall_mem_cons, Access.Inside]
  have hrest : 65536 ≤ sub32 (sub32 hdr_len 4)
      (u16 (device.in_buff_size - (tail + ro : Nat))) := by
    rw [hwrap]
    unfold sub32
    omega
  omega

/-- **A payload.** What is handed over is in the ring iff the payload is; `ret` is then the
number of bytes taken. -/
theorem insert_payload_spec {hdr_len : Nat} (i : Nat) (htail : tail < device.in_buff_size)
    (hro : ro < device.in_buff_size + 4) (hhdr : hdr_len < 65536) :
    ((∀ a ∈ (insert_payload device env dev tail ro (sub32 hdr_len 4) i).1, a.Inside device) ↔
      (dev.opened = true → PayloadIn device (tail + ro) hdr_len)) ∧
    ((dev.opened = true → PayloadIn device (tail + ro) hdr_len) →
      (insert_payload device env dev tail ro (sub32 hdr_len 4) i).2 =
        taken device env dev (tail + ro) hdr_len i) := by
  have hle := device.in_size_le
  have hpos := device.in_size_pos
  have hoff := @u16_mod device (tail + ro) (by omega)
  cases hopened : dev.opened with
  | false =>
    unfold insert_payload taken
    simp only [hopened, Bool.false_eq_true, if_false, false_implies, forall_const, iff_true]
    refine ⟨fun a ha => absurd ha not_mem_nil, ?_⟩
    unfold sub32 toInt32
    omega
  | true => ?_
  rw [forall_prop_of_true rfl]
  have hmod := Nat.mod_lt (tail + ro) hpos
  rcases Nat.lt_or_ge hdr_len 4 with hsmall | hbig
  · have hout : ¬PayloadIn device (tail + ro) hdr_len := fun h => absurd h.1 (by omega)
    exact ⟨iff_of_false (insert_payload_wrapped i hopened hsmall) hout, fun h => absurd h hout⟩
  unfold insert_payload taken
  simp only [hopened, if_true, hoff]
  rw [sub32_eq (by omega) hbig, add32_eq (by omega)]
  unfold PayloadIn
  split
  · rename_i hfits
    rw [toInt32_eq (by omega) (by omega)]
    refine ⟨iff_of_true ?_ ⟨hbig, ?_⟩, fun _ => rfl⟩
    · simp only [forall_mem_singleton, Access.Inside]
      omega
    split
    · have hcases := mod_of_le hpos ‹tail + ro ≤ device.in_buff_size›
      omega
    · exact hfits
  rename_i hlong
  simp only [forall_mem_cons, Access.Inside]
  rcases Nat.lt_or_ge device.in_buff_size (tail + ro) with hbehind | hbefore
  · -- The first part is then taken for a negative number of bytes.
    rw [if_neg (by omega)]
    have hneg : u16 (device.in_buff_size - (tail + ro : Nat)) =
        65536 - (tail + ro - device.in_buff_size) := by
      unfold u16
      omega
    refine ⟨iff_of_false (by omega) fun h => hlong h.2, fun h => absurd h.2 hlong⟩
  rw [if_pos hbefore]
  have hexact : u16 (device.in_buff_size - (tail + ro : Nat)) =
      device.in_buff_size - (tail + ro) := by
    unfold u16
    omega
  have hcases := mod_of_le hpos hbefore
  rw [hexact, sub32_eq (by omega) (by omega), toInt32_eq (by omega) (by omega)]
  refine ⟨?_, fun _ => rfl⟩
  simp only [not_mem_nil, false_implies, implies_true, and_true]
  omega

/-- What the body of the loop does with the frame at `ro`. -/
structure FrameSpec (device : InDevice) (env : Env) (m : Mem) (tail i ro : Nat)
    (r : FrameResult) : Prop where
  inside : (∀ a ∈ r.log, a.Inside device) ↔ FrameIn device env m tail ro
  drop : FrameIn device env m tail ro → r.out = .drop → ∀ ro', ¬Complete device env m tail i ro ro'
  next : FrameIn device env m tail ro → ∀ ro₁ ret, r.out = .next ro₁ ret →
    -4 ≤ ret ∧ ret ≤ 65531 ∧ ro₁ = u16 (ro + (ret + 6)) ∧
    ∀ ro' : Nat, Complete device env m tail i ro ro' ↔ (ro' : Int) = ro + (ret + 6)

/-- Without a header there is nothing that could leave the ring. -/
theorem FrameSpec.of_no_header {log : List Access} {i : Nat}
    (hno : ∀ hdr_len dev, ¬Header device env m tail ro hdr_len dev)
    (hlog : ∀ a ∈ log, a.Inside device) : FrameSpec device env m tail i ro ⟨log, .drop⟩ where
  inside := iff_of_true hlog fun hdr_len dev h => absurd h (hno hdr_len dev)
  drop := by
    rintro _ _ ro' ⟨hdr_len, dev, h, _⟩
    exact hno hdr_len dev h
  next := by
    intro _ ro₁ ret hnext
    cases hnext

theorem Header.unique {hdr_len hdr_len' : Nat} {dev dev' : PdpDev}
    (h : Header device env m tail ro hdr_len dev)
    (h' : Header device env m tail ro hdr_len' dev') : hdr_len' = hdr_len ∧ dev' = dev :=
  ⟨h'.len.trans h.len.symm, Option.some.inj (h'.dev.symm.trans h.dev)⟩

theorem taken_bounds {hdr_len : Nat} (i : Nat) (hhdr : hdr_len < 65536)
    (h : dev.opened = true → PayloadIn device (tail + ro) hdr_len) :
    -4 ≤ taken device env dev (tail + ro) hdr_len i ∧
      taken device env dev (tail + ro) hdr_len i ≤ 65531 := by
  have hpos := device.in_size_pos
  unfold taken
  split
  · rename_i hopened
    obtain ⟨hbig, hin⟩ := h hopened
    split
    · omega
    rename_i hlong
    split at hin
    · have hcases := mod_of_le hpos ‹tail + ro ≤ device.in_buff_size›
      omega
    · exact absurd hin hlong
  omega

/-- The part of the body behind the header. -/
theorem payload_spec {hdr_len : Nat} {log : List Access} (i : Nat)
    (htail : tail < device.in_buff_size) (hro : ro + 1 < device.in_buff_size)
    (hhdr : hdr_len < 65536) (hheader : Header device env m tail ro hdr_len dev)
    (hlog : ∀ a ∈ log, a.Inside device) :
    FrameSpec device env m tail i ro
      (let p := insert_payload device env dev tail (ro + 5) (sub32 hdr_len 4) i
      let a := ring_addr device tail (u16 ((ro + 5 : Nat) + p.2))
      if p.2 = 0 then ⟨log ++ p.1, .drop⟩
      else if READ_FROM_DPRAM m a = 0x7e then
        ⟨log ++ p.1 ++ [.byte a], .next (u16 ((ro + 5 : Nat) + p.2 + 1)) p.2⟩
      else ⟨log ++ p.1 ++ [.byte a], .drop⟩) := by
  obtain ⟨hin, hret⟩ := @insert_payload_spec device env tail dev (ro + 5) hdr_len i htail
    (by omega) hhdr
  have hframe : FrameIn device env m tail ro ↔
      (dev.opened = true → PayloadIn device (tail + (ro + 5)) hdr_len) := by
    constructor
    · exact fun h => h hdr_len dev hheader
    intro h hdr_len' dev' hheader'
    obtain ⟨rfl, rfl⟩ := hheader.unique hheader'
    exact h
  rw [← hframe] at hin hret
  have hbounds := fun h => @taken_bounds device env tail dev (ro + 5) hdr_len i hhdr (hframe.mp h)
  have hcomplete : ∀ ro', Complete device env m tail i ro ro' ↔
      taken device env dev (tail + (ro + 5)) hdr_len i ≠ 0 ∧
      (ro' : Int) = ro + (taken device env dev (tail + (ro + 5)) hdr_len i + 6) ∧
      byte_at device m tail (ro' - 1) = 0x7e := by
    intro ro'
    constructor
    · rintro ⟨hdr_len', dev', hheader', h⟩
      obtain ⟨rfl, rfl⟩ := hheader.unique hheader'
      exact h
    exact fun h => ⟨hdr_len, dev, hheader, h⟩
  generalize insert_payload device env dev tail (ro + 5) (sub32 hdr_len 4) i = p at *
  generalize taken device env dev (tail + (ro + 5)) hdr_len i = t at *
  simp only
  split
  · rename_i hzero
    refine ⟨?_, ?_, ?_⟩
    · rw [← hin, forall_mem_append, and_iff_right hlog]
    · intro h _ ro' hread
      exact ((hcomplete ro').mp hread).1 ((hret h).symm.trans hzero)
    intro _ _ _ hnext
    cases hnext
  rename_i hne
  have hend : (∀ a ∈ log ++ p.1 ++ [.byte (ring_addr device tail (u16 ((ro + 5 : Nat) + p.2)))],
      a.Inside device) ↔ FrameIn device env m tail ro := by
    rw [← hin, forall_mem_append, forall_mem_append, and_iff_right hlog, forall_mem_singleton,
      and_iff_left (ring_addr_inside _)]
  have hlast : FrameIn device env m tail ro → ∀ ro' : Nat, (ro' : Int) = ro + (t + 6) →
      byte_at device m tail (ro' - 1) =
        READ_FROM_DPRAM m (ring_addr device tail (u16 ((ro + 5 : Nat) + p.2))) := by
    intro h ro' hro'
    have hmin := (hbounds h).1
    rw [hret h, @ring_addr_u16 device tail _ (ro' - 1) (by omega)]
    rfl
  split
  · rename_i hflag
    refine ⟨hend, fun _ hdrop => (by cases hdrop), ?_⟩
    intro h ro₁ ret hnext
    cases hnext
    rw [hret h] at hne ⊢
    refine ⟨(hbounds h).1, (hbounds h).2, by congr 1; omega, fun ro' => ?_⟩
    rw [hcomplete]
    exact ⟨fun hread => hread.2.1, fun hro' => ⟨hne, hro', (hlast h ro' hro').trans hflag⟩⟩
  rename_i hflag
  refine ⟨hend, ?_, fun _ _ _ hnext => by cases hnext⟩
  intro h _ ro' hread
  obtain ⟨_, hro', hbyte_end⟩ := (hcomplete ro').mp hread
  exact hflag ((hlast h ro' hro').symm.trans hbyte_end)

theorem read_frame_spec (i : Nat) (htail : tail < device.in_buff_size)
    (hro : ro + 1 < device.in_buff_size) :
    FrameSpec device env m tail i ro (read_frame device env m tail ro i) := by
  have hle := device.in_size_le
  unfold read_frame
  simp only [u16_add, ring_addr_u16 (ro + 1 : Int) rfl,
    ring_addr_u16 (ro + 1 + 1 : Int) rfl, ring_addr_u16 (ro + 1 + 1 + 1 : Int) rfl,
    ring_addr_u16 (ro + 1 + 1 + 1 + 1 : Int) rfl]
  have hfive : u16 (ro + 1 + 1 + 1 + 1 + 1 : Int) = ro + 5 := by
    unfold u16
    omega
  rw [hfive]
  generalize hlen : (READ_FROM_DPRAM m (ring_addr device tail (ro + 1 + 1))).toNat * 256 +
    (READ_FROM_DPRAM m (ring_addr device tail (ro + 1))).toNat = hdr_len
  have hhdr : hdr_len < 65536 := by omega
  generalize hlog : [Access.byte (ring_addr device tail ro), .byte (ring_addr device tail (ro + 1)),
    .byte (ring_addr device tail (ro + 1 + 1)), .byte (ring_addr device tail (ro + 1 + 1 + 1)),
    .byte (ring_addr device tail (ro + 1 + 1 + 1 + 1))] = log
  have hinside : ∀ a ∈ log, a.Inside device := by
    rw [← hlog]
    simp [ring_addr_inside]
  by_cases hstart : READ_FROM_DPRAM m (ring_addr device tail ro) = 0x7f
  case neg =>
    rw [if_pos hstart]
    exact .of_no_header (fun _ _ h => hstart h.start) (by simp [ring_addr_inside])
  rw [if_neg (not_not.mpr hstart)]
  by_cases hfour : sub32 hdr_len 4 = 0
  · rw [if_pos hfour]
    refine .of_no_header (fun _ _ h => h.ne (h.len.trans (hlen.trans ?_))) hinside
    unfold sub32 at hfour
    omega
  rw [if_neg hfour]
  cases hdev : pdp_get_dev env.pdp_table
      (READ_FROM_DPRAM m (ring_addr device tail (ro + 1 + 1 + 1))) with
  | none =>
    refine .of_no_header (fun _ _ h => ?_) hinside
    cases hdev.symm.trans h.dev
  | some dev => ?_
  have hheader : Header device env m tail ro hdr_len dev :=
    ⟨hstart, hlen.symm, fun h => hfour (by rw [h]; decide), hdev⟩
  exact payload_spec i htail hro hhdr hheader hinside

/-! ## The loop -/

/-- **The loop** ends and stays in the ring iff the frames from here on do. `read_offset` and
`size` add up to the number of unread bytes, and each round makes `size` smaller. -/
theorem read_loop_spec {fuel unread : Nat} (i : Nat) {ro : Nat} {size : Int} (retval : Int)
    (htail : tail < device.in_buff_size) (hunread : unread < device.in_buff_size)
    (hro : ro + size = unread) (hsize : 0 ≤ size) (hfuel : size < fuel) :
    ((read_loop device env m tail fuel i ro size retval).out ≠ .running ∧
      ∀ a ∈ (read_loop device env m tail fuel i ro size retval).log, a.Inside device) ↔
    (size ≠ 0 → FramesIn device env m tail unread i ro) := by
  have hle := device.in_size_le
  induction fuel generalizing i ro size retval with
  | zero => omega
  | succ fuel ih => ?_
  unfold read_loop
  split
  · rename_i hzero
    exact iff_of_true ⟨by simp, by simp⟩ fun hne => absurd hzero hne
  rename_i hne
  rw [forall_prop_of_true hne]
  have hspec : FrameSpec device env m tail i ro (read_frame device env m tail ro i) :=
    read_frame_spec i htail (by omega)
  generalize read_frame device env m tail ro i = r at *
  obtain ⟨log, out⟩ := r
  by_cases hframe : FrameIn device env m tail ro
  case neg =>
    -- The log of the frame is part of that of the loop.
    refine iff_of_false (fun hall => hframe (hspec.inside.mp ?_)) ?_
    · cases out with
      | drop => exact hall.2
      | next ro₁ ret => ?_
      have hlog := hall.2
      simp only at hlog ⊢
      split at hlog
      · exact hlog
      · exact (forall_mem_append.mp hlog).1
    rintro ⟨hthis, _⟩
    exact hframe hthis
  have hlog := hspec.inside.mpr hframe
  cases out with
  | drop =>
    refine iff_of_true ⟨by simp, hlog⟩ ⟨hframe, ?_⟩
    intro ro' hread
    exact absurd hread (hspec.drop hframe rfl ro')
  | next ro₁ ret => ?_
  obtain ⟨hmin, hmax, hro₁, hcomplete⟩ := hspec.next hframe ro₁ ret rfl
  -- No step wraps, so both sides move by the same number of bytes.
  have hsize' : toInt32 (size - (ret + 4 + 2)) = size - (ret + 6) := by
    rw [toInt32_eq (by omega) (by omega)]
    omega
  simp only [hsize']
  split
  · rename_i hneg
    refine iff_of_true ⟨by simp, hlog⟩ ⟨hframe, ?_⟩
    intro ro' hread hlt
    have hro' := (hcomplete ro').mp hread
    omega
  rename_i hpos
  have hro' : (ro₁ : Int) = ro + (ret + 6) := by
    rw [hro₁]
    unfold u16
    omega
  have hrest := @ih (i + 1) ro₁ (size - (ret + 6)) (toInt32 (retval + (ret + 4 + 2))) (by omega)
    (by omega) (by omega)
  rw [forall_mem_append, and_iff_right hlog]
  refine hrest.trans ?_
  constructor
  · intro hrest
    refine ⟨hframe, ?_⟩
    intro ro' hread hlt
    have heq : ro' = ro₁ := by
      have hro'' := (hcomplete ro').mp hread
      omega
    rw [heq]
    exact hrest (by omega)
  rintro ⟨_, hrest⟩ hne'
  exact hrest ro₁ ((hcomplete ro₁).mpr hro') (by omega)

end accesses

/-! ## The function -/

/-- **Reading stays in the ring.** Whatever the phone has written: the function returns, and
what it reads or hands to a terminal is in the ring, iff it does not get to read or the
frames of open channels among the unread bytes are in the ring. -/
theorem read_raw_in_ring (device : InDevice) (env : Env) (non_cmd : BitVec 16) (s : Onedram)
    (hhead : READ_FROM_DPRAM_VERIFY s.mem device.in_head_addr < device.in_buff_size)
    (htail : READ_FROM_DPRAM_VERIFY s.mem device.in_tail_addr < device.in_buff_size) :
    ((dpram_read_raw device env non_cmd s).ret.isSome ∧
      ∀ a ∈ (dpram_read_raw device env non_cmd s).log, a.Inside device) ↔
    (s.sem = true → READ_FROM_DPRAM_VERIFY s.mem device.in_head_addr ≠
        READ_FROM_DPRAM_VERIFY s.mem device.in_tail_addr →
      FramesIn device env s.mem (READ_FROM_DPRAM_VERIFY s.mem device.in_tail_addr)
        (unread device (READ_FROM_DPRAM_VERIFY s.mem device.in_head_addr)
          (READ_FROM_DPRAM_VERIFY s.mem device.in_tail_addr)) 0 0) := by
  have htail_word : ∀ a ∈ [.word device.in_tail_addr], Access.Inside device a :=
    forall_mem_singleton.mpr (Or.inr rfl)
  have hwords : ∀ a ∈ [.word device.in_head_addr, .word device.in_tail_addr],
      Access.Inside device a :=
    forall_mem_cons.mpr ⟨Or.inl rfl, htail_word⟩
  have hmem := lock_mem s
  have hlock : (onedram_lock_with_semaphore s).1 = s.sem := by
    unfold onedram_lock_with_semaphore
    cases s.sem <;> rfl
  unfold dpram_read_raw
  generalize onedram_lock_with_semaphore s = l at *
  obtain ⟨locked, t⟩ := l
  simp only at hmem hlock
  rw [← hmem] at hhead htail ⊢
  rw [← hlock]
  cases locked with
  | false => simp
  | true => ?_
  simp only [Bool.not_true, Bool.false_eq_true, if_false, forall_const]
  generalize READ_FROM_DPRAM_VERIFY t.mem device.in_head_addr = head at *
  generalize READ_FROM_DPRAM_VERIFY t.mem device.in_tail_addr = tail at *
  split
  · rename_i hne
    rw [forall_prop_of_true hne]
    have hunread : unread device head tail < device.in_buff_size ∧ unread device head tail ≠ 0 := by
      unfold unread
      split <;> omega
    have hloop := @read_loop_spec device env t.mem tail (unread device head tail + 1)
      (unread device head tail) 0 0 (unread device head tail) 0 htail hunread.1 (by omega)
      (by omega) (by omega)
    rw [forall_prop_of_true (by omega)] at hloop
    rw [← hloop]
    generalize read_loop device env t.mem tail (unread device head tail + 1) 0 0
      (unread device head tail) 0 = r at *
    obtain ⟨log, out⟩ := r
    cases out with
    | drop =>
      simp only [forall_mem_append, and_iff_left hwords, and_iff_right hwords]
      exact and_congr_left' (iff_of_true rfl (by simp))
    | done ro retval =>
      simp only [forall_mem_append, and_iff_left htail_word, and_iff_right hwords]
      exact and_congr_left' (iff_of_true rfl (by simp))
    | running => exact iff_of_false (fun h => absurd h.1 (by simp)) fun h => h.1 rfl
  rename_i heq
  exact iff_of_true ⟨rfl, hwords⟩ fun hne => absurd hne heq

instance (device : InDevice) (a : Access) : Decidable (a.Inside device) := by
  cases a with
  | word addr => exact inferInstanceAs (Decidable (_ ∨ _))
  | byte addr | tty addr len => exact inferInstanceAs (Decidable (_ ∧ _))

/-- The incoming ring of `dpram_table[RAW_INDEX]`. -/
def raw_in : InDevice where
  todpram_device_t := dpram_table_raw.todpram_device_t
  in_size_pos := by decide
  in_size_le := by decide
  in_addr_even := by decide
  in_size_even := by decide

/-- The phone has written `xs` at the start of the ring. -/
def phone_wrote (xs : List (BitVec 8)) : Onedram where
  mem := fun a =>
    if a = raw_in.in_head_addr then BitVec.ofNat 8 xs.length
    else if raw_in.in_buff_addr ≤ a then xs.getD (a - raw_in.in_buff_addr) 0
    else 0
  sem := true
  mailboxBA := 0
  onedram_lock := 0
  requested_semaphore := 0
  phone_sync := true
  dump_on := false

/-- Channel 1 is open, and its terminal takes what it gets. -/
def channel_one : Env := ⟨[none, some ⟨1, true⟩], fun _ => 100000⟩

/-- A header length that is behind the unread bytes, but in the ring. -/
theorem read_raw_in_ring_long :
    (∀ a ∈ (dpram_read_raw raw_in channel_one 0 (phone_wrote [0x7f, 8, 0, 1, 0, 9, 0x7e])).log,
      a.Inside raw_in) ∧
    FramesIn raw_in channel_one (phone_wrote [0x7f, 8, 0, 1, 0, 9, 0x7e]).mem 0 7 0 0 := by
  have hin : (dpram_read_raw raw_in channel_one 0
        (phone_wrote [0x7f, 8, 0, 1, 0, 9, 0x7e])).ret.isSome ∧
      ∀ a ∈ (dpram_read_raw raw_in channel_one 0
        (phone_wrote [0x7f, 8, 0, 1, 0, 9, 0x7e])).log, a.Inside raw_in := by
    decide +kernel
  have hhead : READ_FROM_DPRAM_VERIFY (phone_wrote [0x7f, 8, 0, 1, 0, 9, 0x7e]).mem
      raw_in.in_head_addr = 7 := by decide +kernel
  have htail : READ_FROM_DPRAM_VERIFY (phone_wrote [0x7f, 8, 0, 1, 0, 9, 0x7e]).mem
      raw_in.in_tail_addr = 0 := by decide +kernel
  have hframes := (read_raw_in_ring raw_in channel_one 0 _ (by rw [hhead]; decide)
    (by rw [htail]; decide)).mp hin rfl (by rw [hhead, htail]; decide)
  rw [hhead, htail] at hframes
  exact ⟨hin.2, hframes⟩

/-- **Reading behind the ring.** A frame for an open channel with the header
length 3 makes the function hand 4294967295 bytes to the terminal. -/
theorem read_raw_leaves_ring :
    READ_FROM_DPRAM_VERIFY (phone_wrote [0x7f, 3, 0, 1, 0, 0x7e]).mem raw_in.in_head_addr <
      raw_in.in_buff_size ∧
    READ_FROM_DPRAM_VERIFY (phone_wrote [0x7f, 3, 0, 1, 0, 0x7e]).mem raw_in.in_tail_addr <
      raw_in.in_buff_size ∧
    .tty (raw_in.in_buff_addr + 5) 4294967295 ∈
      (dpram_read_raw raw_in channel_one 0 (phone_wrote [0x7f, 3, 0, 1, 0, 0x7e])).log ∧
    ¬ (Access.tty (raw_in.in_buff_addr + 5) 4294967295).Inside raw_in := by
  decide +kernel

end Nubernel.Dpram
