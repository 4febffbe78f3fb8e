import Nubernel.Dpram.Write

/-! # dpram: frames of the virtual serial devices

Model of `pdp_mux` and `vs_write` of `drivers/onedram/dpram/dpram.c`.
What is written to a virtual serial device is cut into pieces of at most
1500 bytes; each is put into a frame in the buffer of its channel and
written to the raw device.

Between two frames the phone has the semaphore: it may read from the ring
and it decides whether to hand the semaphore back, `Turn`. Without it the
frame is refused and `vs_write` fails.

`dpram_write` stores what there is room for, and `pdp_mux` takes every
result that is not negative for success. Without room a frame is cut off and the caller is not told.
-/

open Function Halfword List RingBuffer

namespace Nubernel.Dpram

/-! ## The functions of the source -/

def MAX_PDP_DATA_LEN : Nat := 1500

/-- `struct pdp_info`: the id of the channel and the address of its buffer. -/
structure pdp_info where
  id : BitVec 8
  tx_buf : Nat

/-- `sizeof(struct pdp_hdr)`. -/
def sizeof_pdp_hdr : Nat := 4

/-- The fields of the header that are set once. -/
def init_hdr (dev : pdp_info) (tx : Mem) : Mem :=
  Function.update (Function.update tx (dev.tx_buf + 3) dev.id) (dev.tx_buf + 4) 0

/-- A frame in the buffer of the channel. -/
def fill_tx_buf (dev : pdp_info) (data : Mem) (buf nbytes : Nat) (tx : Mem) : Mem :=
  let hdr_len := nbytes + sizeof_pdp_hdr
  let tx := store16 tx (dev.tx_buf + 1) (BitVec.ofNat 16 hdr_len)
  let tx := Function.update tx dev.tx_buf 0x7f
  let tx := memcpy tx (dev.tx_buf + 1 + sizeof_pdp_hdr) (slice data buf nbytes)
  Function.update tx (dev.tx_buf + (1 + hdr_len)) 0x7e

/-- What the phone does before a frame is written. -/
structure Turn where
  /-- How many bytes it reads. -/
  drained : Nat
  /-- Before which polls it hands the semaphore over. -/
  arrives : Nat → Bool

/-- How a call of `pdp_mux` ends. -/
structure MuxResult where
  ret : Except Errno Unit
  state : Onedram
  /-- What the phone has read in the meantime. -/
  received : List (BitVec 8)

/-- The loop of `pdp_mux`; `i` counts the frames. -/
def pdp_mux_loop (dev : pdp_info) (data : Mem) (phone : Nat → Turn) (buf len i : Nat) (tx : Mem)
    (s : Onedram) : MuxResult :=
  if _hlen : len = 0 then
    ⟨.ok (), s, []⟩
  else
    let nbytes := if len > MAX_PDP_DATA_LEN then MAX_PDP_DATA_LEN else len
    let tx := fill_tx_buf dev data buf nbytes tx
    let size := nbytes + sizeof_pdp_hdr + 2
    let (xs, m) := drain dpram_table_raw (phone i).drained s.mem
    let (ret, s) :=
      dpram_write dpram_table_raw (phone i).arrives tx dev.tx_buf size { s with mem := m }
    match ret with
    | .error e => ⟨.error e, s, xs⟩
    -- `ret < 0` is all that is looked at: the number of bytes stored is not.
    | .ok _ =>
      let r := pdp_mux_loop dev data phone (buf + nbytes) (len - nbytes) (i + 1) tx s
      ⟨r.ret, r.state, xs ++ r.received⟩
termination_by len
decreasing_by
  unfold MAX_PDP_DATA_LEN
  split <;> omega

def pdp_mux (dev : pdp_info) (data : Mem) (phone : Nat → Turn) (buf len : Nat) (tx : Mem)
    (s : Onedram) : MuxResult :=
  pdp_mux_loop dev data phone buf len 0 (init_hdr dev tx) s

/-- What `vs_write` returns, and the call of `pdp_mux`. -/
def vs_write (dev : pdp_info) (data : Mem) (phone : Nat → Turn) (buf count : Nat) (tx : Mem)
    (s : Onedram) : Except Errno Nat × MuxResult :=
  let r := pdp_mux dev data phone buf count tx s
  (r.ret.map fun _ => count, r)

/-! ## Frames -/

/-- The frame of a payload. -/
def frame (id : BitVec 8) (payload : List (BitVec 8)) : List (BitVec 8) :=
  let len := BitVec.ofNat 16 (payload.length + sizeof_pdp_hdr)
  [0x7f, low len, high len, id, 0] ++ payload ++ [0x7e]

/-- The header has been set up. -/
def HdrSet (dev : pdp_info) (tx : Mem) : Prop :=
  tx (dev.tx_buf + 3) = dev.id ∧ tx (dev.tx_buf + 4) = 0

theorem init_hdr_set (dev : pdp_info) (tx : Mem) : HdrSet dev (init_hdr dev tx) := by
  unfold HdrSet init_hdr
  constructor
  · rw [update_of_ne (by omega), update_self]
  · rw [update_self]

section fill
variable (dev : pdp_info) (data : Mem) (buf nbytes : Nat) {tx : Mem}

/-- The bytes of the buffer of the channel. -/
theorem fill_tx_buf_apply (i : Nat) :
    fill_tx_buf dev data buf nbytes tx i =
      if i = dev.tx_buf + 5 + nbytes then 0x7e
      else if dev.tx_buf + 5 ≤ i ∧ i < dev.tx_buf + 5 + nbytes then
        data (buf + (i - (dev.tx_buf + 5)))
      else if i = dev.tx_buf then 0x7f
      else if i = dev.tx_buf + 1 then low (BitVec.ofNat 16 (nbytes + sizeof_pdp_hdr))
      else if i = dev.tx_buf + 2 then high (BitVec.ofNat 16 (nbytes + sizeof_pdp_hdr))
      else tx i := by
  have hend : dev.tx_buf + (1 + (nbytes + sizeof_pdp_hdr)) = dev.tx_buf + 5 + nbytes := by
    unfold sizeof_pdp_hdr
    omega
  unfold fill_tx_buf
  simp only [hend]
  rw [update_apply]
  show (if _ then _ else memcpy _ (dev.tx_buf + 5) _ i) = _
  rw [memcpy_slice_apply, update_apply, store16_apply]

theorem fill_tx_buf_hdr (h : HdrSet dev tx) :
    HdrSet dev (fill_tx_buf dev data buf nbytes tx) := by
  constructor
  · rw [fill_tx_buf_apply, if_neg (by omega), if_neg (by omega), if_neg (by omega),
      if_neg (by omega), if_neg (by omega)]
    exact h.1
  rw [fill_tx_buf_apply, if_neg (by omega), if_neg (by omega), if_neg (by omega),
    if_neg (by omega), if_neg (by omega)]
  exact h.2

/-- The buffer of the channel has the frame of the data. -/
theorem slice_fill_tx_buf (h : HdrSet dev tx) :
    slice (fill_tx_buf dev data buf nbytes tx) dev.tx_buf (nbytes + sizeof_pdp_hdr + 2) =
      frame dev.id (slice data buf nbytes) := by
  have hsize : nbytes + sizeof_pdp_hdr + 2 = 5 + nbytes + 1 := by
    unfold sizeof_pdp_hdr
    omega
  have hhdr : slice (fill_tx_buf dev data buf nbytes tx) dev.tx_buf 5 =
      [0x7f, low (BitVec.ofNat 16 (nbytes + sizeof_pdp_hdr)),
        high (BitVec.ofNat 16 (nbytes + sizeof_pdp_hdr)), dev.id, 0] := by
    have hset := fill_tx_buf_hdr dev data buf nbytes h
    simp only [slice, range_succ, range_zero, nil_append, cons_append,
      map_cons, map_nil, hset.1, hset.2, Nat.add_zero]
    rw [fill_tx_buf_apply dev data buf nbytes dev.tx_buf, if_neg (by omega), if_neg (by omega),
      if_pos rfl, fill_tx_buf_apply dev data buf nbytes (dev.tx_buf + 1), if_neg (by omega),
      if_neg (by omega), if_neg (by omega), if_pos rfl,
      fill_tx_buf_apply dev data buf nbytes (dev.tx_buf + 2), if_neg (by omega),
      if_neg (by omega), if_neg (by omega), if_neg (by omega), if_pos rfl]
  have hpayload : slice (fill_tx_buf dev data buf nbytes tx) (dev.tx_buf + 5) nbytes =
      slice data buf nbytes := by
    apply map_congr_left
    intro i hi
    rw [mem_range] at hi
    rw [fill_tx_buf_apply, if_neg (by omega), if_pos (by omega), Nat.add_sub_cancel_left]
  have hend : slice (fill_tx_buf dev data buf nbytes tx) (dev.tx_buf + (5 + nbytes)) 1 =
      [0x7e] := by
    simp [slice, fill_tx_buf_apply, Nat.add_assoc]
  rw [hsize, ← slice_append, ← slice_append, hhdr, hpayload, hend]
  unfold frame
  rw [length_slice]

end fill

/-! ## What is sent -/

/-- The data of a call, cut into the payloads of its frames. -/
def pieces (data : Mem) (buf len : Nat) : List (List (BitVec 8)) :=
  if _hlen : len = 0 then
    []
  else
    let nbytes := if len > MAX_PDP_DATA_LEN then MAX_PDP_DATA_LEN else len
    slice data buf nbytes :: pieces data (buf + nbytes) (len - nbytes)
termination_by len
decreasing_by
  unfold MAX_PDP_DATA_LEN
  split <;> omega

/-- The semaphore is had for frame `i` of a call. -/
def granted (s : Onedram) (i : Nat) (arrives : Nat → Bool) : Bool :=
  (if i = 0 then s.sem else kept s) || handed s arrives

/-- The frames of a call that are not refused, from number `i` on. -/
def through (s : Onedram) (phone : Nat → Turn) :
    Nat → List (List (BitVec 8)) → List (List (BitVec 8))
  | _, [] => []
  | i, payload :: rest =>
    if granted s i (phone i).arrives then payload :: through s phone (i + 1) rest else []

/-- Each frame finds room for all of it, beside the bytes that the phone has then still to
read. -/
def Fits (phone : Nat → Turn) : Nat → Nat → List (List (BitVec 8)) → Prop
  | _, _, [] => True
  | unread, i, payload :: rest =>
    let stored := unread - (phone i).drained + (payload.length + sizeof_pdp_hdr + 2)
    stored ≤ dpram_table_raw.out_buff_size - 1 ∧ Fits phone stored (i + 1) rest

theorem pieces_spec (data : Mem) (buf len : Nat) :
    (pieces data buf len).flatten = slice data buf len ∧
      ∀ payload ∈ pieces data buf len, 0 < payload.length ∧ payload.length ≤ MAX_PDP_DATA_LEN := by
  induction len using Nat.strongRecOn generalizing buf with
  | ind len ih =>
    rw [pieces]
    by_cases hlen : len = 0
    · rw [dif_pos hlen, hlen]
      simp [slice]
    rw [dif_neg hlen]
    simp only
    generalize hn : (if len > MAX_PDP_DATA_LEN then MAX_PDP_DATA_LEN else len) = nbytes
    obtain ⟨hpos, hmax, hle⟩ : 0 < nbytes ∧ nbytes ≤ MAX_PDP_DATA_LEN ∧ nbytes ≤ len := by
      unfold MAX_PDP_DATA_LEN at *
      split at hn <;> omega
    obtain ⟨hflat, hsizes⟩ := ih (len - nbytes) (by omega) (buf + nbytes)
    rw [flatten_cons, hflat, slice_append, Nat.add_sub_of_le hle, forall_mem_cons, length_slice]
    exact ⟨rfl, ⟨hpos, hmax⟩, hsizes⟩

/-! ### The semaphore -/

/-- The state before frame `i` of a call: what refusals depend on is as it was at first. -/
structure At (s₀ : Onedram) (i : Nat) (s : Onedram) : Prop where
  sem : s.sem = if i = 0 then s₀.sem else kept s₀
  lock : s.onedram_lock = s₀.onedram_lock
  dump : s.dump_on = s₀.dump_on
  sync : s.phone_sync = s₀.phone_sync
  requested : s.requested_semaphore = s₀.requested_semaphore ∨
    (i ≠ 0 ∧ s.requested_semaphore = 0)

section at_frame
variable {s₀ s : Onedram} {i : Nat} (h : At s₀ i s) {arrives : Nat → Bool}
include h

theorem At.granted : (s.sem || handed s arrives) = Dpram.granted s₀ i arrives := by
  unfold Dpram.granted handed
  rw [h.sem, h.dump, h.sync]

/-- A request of the phone that was granted during the call makes a difference only while
memory is dumped, and then no further frame is written. -/
theorem At.kept (hgranted : Dpram.granted s₀ i arrives = true) : kept s = Dpram.kept s₀ := by
  rcases h.requested with hsame | ⟨hne, hzero⟩
  · unfold Dpram.kept
    rw [h.lock, h.dump, hsame]
  unfold Dpram.granted handed at hgranted
  rw [if_neg hne] at hgranted
  unfold Dpram.kept at *
  rw [h.lock, h.dump, hzero]
  cases hdump : s₀.dump_on with
  | false => rfl
  | true =>
    rw [hdump] at hgranted
    simp at hgranted ⊢
    exact hgranted

/-- A frame that is not refused is written, and then comes the next one. -/
theorem At.write (hgranted : Dpram.granted s₀ i arrives = true) (buf : Mem) (src len : Nat) :
    ∃ t, dpram_write dpram_table_raw arrives buf src len s =
        (.ok (write_locked dpram_table_raw buf src len s.mem).1, t) ∧
      t.mem = (write_locked dpram_table_raw buf src len s.mem).2 ∧ At s₀ (i + 1) t := by
  obtain ⟨t, heq, hmem, hsem, hlock, hdump, hsync, hrequested⟩ :=
    dpram_write_granted dpram_table_raw arrives buf src len (h.granted.trans hgranted)
  refine ⟨t, heq, hmem, hsem.trans (h.kept hgranted), hlock.trans h.lock, hdump.trans h.dump,
    hsync.trans h.sync, ?_⟩
  rcases hrequested with hsame | hzero
  · rcases h.requested with hfirst | ⟨_, hzero⟩
    · exact .inl (hsame.trans hfirst)
    · exact .inr ⟨by omega, hsame.trans hzero⟩
  · exact .inr ⟨by omega, hzero⟩

end at_frame

/-! ### The loop -/

variable {dev : pdp_info} {data : Mem}

/-- **The loop** fails iff a frame is refused. What it adds to the bytes that the phone gets
to see is not longer than the frames that are not refused, and is these frames iff each
finds room. -/
theorem pdp_mux_loop_spec (phone : Nat → Turn) (s₀ : Onedram) (buf len i : Nat) {tx : Mem}
    {s : Onedram} (hhdr : HdrSet dev tx) (hring : InRing dpram_table_raw s.mem) (hat : At s₀ i s) :
    (pdp_mux_loop dev data phone buf len i tx s).ret =
        (if through s₀ phone i (pieces data buf len) = pieces data buf len then .ok ()
          else .error .EINTR) ∧
      ∃ stored, (pdp_mux_loop dev data phone buf len i tx s).received ++
          queue dpram_table_raw (pdp_mux_loop dev data phone buf len i tx s).state.mem =
        queue dpram_table_raw s.mem ++ stored ∧
      stored.length ≤
        ((through s₀ phone i (pieces data buf len)).map (frame dev.id)).flatten.length ∧
      (stored = ((through s₀ phone i (pieces data buf len)).map (frame dev.id)).flatten ↔
        Fits phone (used dpram_table_raw s.mem) i (through s₀ phone i (pieces data buf len))) := by
  -- Each frame makes the length that is left smaller.
  induction len using Nat.strongRecOn generalizing buf i tx s with
  | ind len ih =>
    rw [pdp_mux_loop, pieces]
    by_cases hlen : len = 0
    · rw [dif_pos hlen, dif_pos hlen]
      exact ⟨rfl, [], by simp, le_refl 0, iff_of_true rfl trivial⟩
    rw [dif_neg hlen, dif_neg hlen]
    simp only
    generalize hn : (if len > MAX_PDP_DATA_LEN then MAX_PDP_DATA_LEN else len) = nbytes
    obtain ⟨hpos, hle⟩ : 0 < nbytes ∧ nbytes ≤ len := by
      unfold MAX_PDP_DATA_LEN at *
      split at hn <;> omega
    -- What the phone reads first.
    have hring' := drain_inRing (phone i).drained hring
    generalize hd : drain dpram_table_raw (phone i).drained s.mem = d at *
    have hsplit : d.1 ++ queue dpram_table_raw d.2 = queue dpram_table_raw s.mem := by
      rw [← hd, drain_fst _ hring, drain_queue _ hring, take_append_drop]
    have hused : used dpram_table_raw d.2 = used dpram_table_raw s.mem - (phone i).drained := by
      rw [← length_queue, ← hd, drain_queue _ hring, length_drop, length_queue]
    have hat' : At s₀ i { s with mem := d.2 } := ⟨hat.sem, hat.lock, hat.dump, hat.sync, hat.requested⟩
    rw [through]
    cases hgranted : granted s₀ i (phone i).arrives with
    | false =>
      obtain ⟨t, heq, hmem⟩ := dpram_write_refused dpram_table_raw (phone i).arrives
        (fill_tx_buf dev data buf nbytes tx) dev.tx_buf (nbytes + sizeof_pdp_hdr + 2)
        (hat'.granted.trans hgranted)
      rw [heq]
      refine ⟨rfl, [], ?_, le_refl 0, iff_of_true rfl trivial⟩
      simp only [hmem, hsplit, append_nil]
    | true => ?_
    obtain ⟨t, heq, hmem, hat_next⟩ := hat'.write hgranted
      (fill_tx_buf dev data buf nbytes tx) dev.tx_buf (nbytes + sizeof_pdp_hdr + 2)
    rw [heq]
    have hw := write_locked_spec (fill_tx_buf dev data buf nbytes tx) dev.tx_buf
      (nbytes + sizeof_pdp_hdr + 2) hring'
    rw [← hmem] at hw
    have hcount := hw.count
    have hqueue := hw.queue hring'
    generalize (write_locked dpram_table_raw (fill_tx_buf dev data buf nbytes tx) dev.tx_buf
      (nbytes + sizeof_pdp_hdr + 2) d.2).1 = k at hcount hqueue
    obtain ⟨hret, stored, hstored, hshort, hiff⟩ := ih (len - nbytes) (by omega) (buf + nbytes)
      (i + 1) (fill_tx_buf_hdr dev data buf nbytes hhdr) (hw.inRing hring') hat_next
    have hframe := slice_fill_tx_buf dev data buf nbytes hhdr
    have hframe_length : (frame dev.id (slice data buf nbytes)).length =
        nbytes + sizeof_pdp_hdr + 2 := by
      rw [← hframe, length_slice]
    have hroom : nbytes + sizeof_pdp_hdr + 2 ≤ free dpram_table_raw d.2 ↔
        used dpram_table_raw s.mem - (phone i).drained +
            ((slice data buf nbytes).length + sizeof_pdp_hdr + 2) ≤
          dpram_table_raw.out_buff_size - 1 := by
      have hlt : used dpram_table_raw d.2 < dpram_table_raw.out_buff_size := used_lt
      unfold free
      rw [length_slice, ← hused]
      omega
    simp only [if_true, map_cons, flatten_cons, length_append, hframe_length]
    refine ⟨?_, slice (fill_tx_buf dev data buf nbytes tx) dev.tx_buf k ++ stored, ?_, ?_, ?_⟩
    · simp only [hret, cons.injEq, true_and]
    · rw [append_assoc, hstored, hqueue, append_assoc, ← append_assoc d.1, hsplit]
    · rw [length_append, length_slice]
      omega
    rw [Fits, ← hroom]
    by_cases hfit : nbytes + sizeof_pdp_hdr + 2 ≤ free dpram_table_raw d.2
    · -- All of the frame was stored.
      rw [Nat.min_eq_left hfit] at hcount
      have hunread : used dpram_table_raw t.mem = used dpram_table_raw s.mem - (phone i).drained +
          ((slice data buf nbytes).length + sizeof_pdp_hdr + 2) := by
        rw [← length_queue, hqueue, length_append, length_queue, hused, length_slice, hcount,
          length_slice]
      rw [hcount, hframe, append_right_inj, hiff, hunread, and_iff_right hfit]
    -- Some of it is missing, and no later frame makes up for it.
    refine iff_of_false (fun hsame => ?_) fun h => hfit h.1
    have hlength := congrArg List.length hsame
    rw [length_append, length_append, length_slice, hframe_length] at hlength
    omega

/-- **Whole frames.** The data is cut into payloads, and `vs_write` returns `count` iff none
of their frames is refused. What the phone gets to see, read during the call or unread
after it, is what was unread before and, whole, the frames that are not refused, iff
each of these finds room. -/
theorem vs_write_sends_frames (dev : pdp_info) (data : Mem) (phone : Nat → Turn)
    (buf count : Nat) (tx : Mem) (s : Onedram) (hring : InRing dpram_table_raw s.mem) :
    (pieces data buf count).flatten = slice data buf count ∧
    (∀ payload ∈ pieces data buf count,
      0 < payload.length ∧ payload.length ≤ MAX_PDP_DATA_LEN) ∧
    (vs_write dev data phone buf count tx s).1 =
      (if through s phone 0 (pieces data buf count) = pieces data buf count then .ok count
        else .error .EINTR) ∧
    ((vs_write dev data phone buf count tx s).2.received ++
          queue dpram_table_raw (vs_write dev data phone buf count tx s).2.state.mem =
        queue dpram_table_raw s.mem ++
          ((through s phone 0 (pieces data buf count)).map (frame dev.id)).flatten ↔
      Fits phone (used dpram_table_raw s.mem) 0 (through s phone 0 (pieces data buf count))) := by
  have hat : At s 0 s := ⟨rfl, rfl, rfl, rfl, .inl rfl⟩
  obtain ⟨hret, stored, hstored, _, hiff⟩ := @pdp_mux_loop_spec dev data phone s buf count 0 _ _
    (init_hdr_set dev tx) hring hat
  unfold vs_write pdp_mux
  refine ⟨(pieces_spec data buf count).1, (pieces_spec data buf count).2, ?_, ?_⟩
  · -- `vs_write` fails if `pdp_mux` does.
    simp only [hret]
    split <;> rfl
  simp only
  rw [hstored, append_right_inj]
  exact hiff

theorem pdp_mux_loop_one (phone : Nat → Turn) (buf i : Nat) {len : Nat} (tx : Mem) (s : Onedram)
    (hpos : 0 < len) (hmax : len ≤ MAX_PDP_DATA_LEN) :
    pdp_mux_loop dev data phone buf len i tx s =
      let m := (drain dpram_table_raw (phone i).drained s.mem).2
      let r := dpram_write dpram_table_raw (phone i).arrives (fill_tx_buf dev data buf len tx)
        dev.tx_buf (len + sizeof_pdp_hdr + 2) { s with mem := m }
      ⟨r.1.map fun _ => (), r.2, (drain dpram_table_raw (phone i).drained s.mem).1⟩ := by
  rw [pdp_mux_loop, dif_neg (by omega)]
  simp only [if_neg (Nat.not_lt.mpr hmax), Nat.sub_self]
  generalize dpram_write _ _ _ _ _ _ = r
  obtain ⟨ret, t⟩ := r
  cases ret with
  | error e => rfl
  | ok n =>
    -- After the only frame nothing is left.
    rw [pdp_mux_loop, dif_pos rfl, append_nil]
    rfl

/-- A call with one frame and the semaphore held succeeds, however much of the
frame was stored. -/
theorem vs_write_one (phone : Nat → Turn) (buf : Nat) {count : Nat} (tx : Mem) {s : Onedram}
    (hsem : s.sem = true) (hpos : 0 < count) (hmax : count ≤ MAX_PDP_DATA_LEN) :
    (vs_write dev data phone buf count tx s).1 = .ok count ∧
    (vs_write dev data phone buf count tx s).2.received =
      (drain dpram_table_raw (phone 0).drained s.mem).1 ∧
    (vs_write dev data phone buf count tx s).2.state.mem =
      (write_locked dpram_table_raw (fill_tx_buf dev data buf count (init_hdr dev tx)) dev.tx_buf
        (count + sizeof_pdp_hdr + 2) (drain dpram_table_raw (phone 0).drained s.mem).2).2 := by
  obtain ⟨t, heq, hmem, _⟩ := dpram_write_granted dpram_table_raw (phone 0).arrives
    (fill_tx_buf dev data buf count (init_hdr dev tx)) dev.tx_buf (count + sizeof_pdp_hdr + 2)
    (s := { s with mem := (drain dpram_table_raw (phone 0).drained s.mem).2 })
    (Bool.or_eq_true_iff.mpr (.inl hsem))
  unfold vs_write pdp_mux
  rw [pdp_mux_loop_one _ _ _ _ _ hpos hmax]
  simp only [heq]
  exact ⟨rfl, trivial, hmem⟩

/-- A channel, for examples. -/
def channel : pdp_info := ⟨1, 0⟩

/-- A phone that does not read and keeps the semaphore. -/
def silent : Nat → Turn := fun _ => ⟨0, fun _ => false⟩

/-- One byte in a ring with room for it. -/
theorem vs_write_sends_frames_one :
    (vs_write channel (fun _ => 5) silent 0 1 (fun _ => 0) started).2.received ++
        queue dpram_table_raw
          (vs_write channel (fun _ => 5) silent 0 1 (fun _ => 0) started).2.state.mem =
      queue dpram_table_raw started.mem ++ frame channel.id [5] := by
  have hpieces : pieces (fun _ => 5) 0 1 = [[5]] := by
    rw [pieces, dif_neg (by decide)]
    simp only
    rw [if_neg (by decide), pieces, dif_pos (by decide)]
    rfl
  have hfits : Fits silent (used dpram_table_raw started.mem) 0 (through started silent 0 [[5]]) :=
    ⟨by decide +kernel, trivial⟩
  have hspec := vs_write_sends_frames channel (fun _ => 5) silent 0 1 (fun _ => 0) started
    started_inRing
  rw [hpieces] at hspec
  exact hspec.2.2.2.mpr hfits

/-- A ring with three free bytes. -/
def nearly_full : Onedram := { started with mem := Function.update (fun _ => 0) 4102 4 }

/-- **Truncated frame.** One byte is written to a channel while the raw ring
has three free bytes: three bytes of its frame are stored, and `vs_write`
returns that it has written the byte. -/
theorem vs_write_truncates :
    InRing dpram_table_raw nearly_full.mem ∧
    (vs_write channel (fun _ => 5) silent 0 1 (fun _ => 0) nearly_full).1 = .ok 1 ∧
    (vs_write channel (fun _ => 5) silent 0 1 (fun _ => 0) nearly_full).2.received = [] ∧
    queue dpram_table_raw
        (vs_write channel (fun _ => 5) silent 0 1 (fun _ => 0) nearly_full).2.state.mem =
      queue dpram_table_raw nearly_full.mem ++ [0x7f, 5, 0] ∧
    ∀ payloads : List (List (BitVec 8)),
      [0x7f, 5, 0] ≠ (payloads.map (frame channel.id)).flatten := by
  have hring : InRing dpram_table_raw nearly_full.mem := ⟨by decide +kernel, by decide +kernel⟩
  have hring' := drain_inRing 0 hring
  have hw := write_locked_spec
    (fill_tx_buf channel (fun _ => 5) 0 1 (init_hdr channel fun _ => 0)) channel.tx_buf
    (1 + sizeof_pdp_hdr + 2) hring'
  have hthree : min (1 + sizeof_pdp_hdr + 2)
      (free dpram_table_raw (drain dpram_table_raw 0 nearly_full.mem).2) = 3 := by
    decide +kernel
  have hqueue := hw.queue hring'
  rw [hw.count, hthree, drain_queue 0 hring] at hqueue
  obtain ⟨hret, hreceived, hmem⟩ := @vs_write_one channel (fun _ => 5) silent 0 1 (fun _ => 0)
    nearly_full rfl Nat.zero_lt_one (by decide)
  refine ⟨hring, hret, ?_, ?_, ?_⟩
  · rw [hreceived]
    exact (drain_fst 0 hring).trans (take_zero ..)
  · rw [hmem]
    exact hqueue.trans rfl
  intro payloads h
  cases payloads with
  | nil => cases h
  | cons payload payloads =>
    have hlen := congrArg List.length h
    simp [frame] at hlen

end Nubernel.Dpram
