import Nubernel.Logger.Model

/-! # logger: the entries in the ring

All entries ever written, one after the other, are the tape that the
ring buffer is a window on. An offset of the log (`head`, or the
`r_off` of a reader) stands at the start of an entry on that tape, less
than a turn behind the write head, and the ring holds everything in
between: that is `Cursor`, and `LogOk` says it of all offsets.

A write first pulls the offsets forward until even the new entry keeps
less than a turn between them and the write head. From then on the
bytes it writes, or leaves behind when it fails, are out of the way.
-/

namespace Nubernel.Logger

open Nat hiding min_eq_right
open LTS List Option RingBuffer

/-! ## Entries -/

/-- A byte string that starts with its own length, as a header does. -/
structure IsEntry (e : Bytes) : Prop where
  len : ∃ lo hi rest, e = lo :: hi :: rest ∧
    e.length = LOGGER_ENTRY_SIZE + (lo.toNat + 2 ^ 8 * hi.toNat)
  max : e.length ≤ LOGGER_ENTRY_MAX_LEN

variable {e : Bytes} {es old written : List Bytes} {log log' : LoggerLog}
   {order p off count len : Nat}

theorem IsEntry.length_pos (h : IsEntry e) : 0 < e.length := by
  obtain ⟨lo, hi, rest, rfl, _⟩ := h.len
  simp

theorem length_header_bytes (header : LoggerEntry) (len : Nat) :
    (header.bytes len).length = LOGGER_ENTRY_SIZE := rfl

theorem length_entry_of (header : LoggerEntry) (iov : List Iovec) :
    (entry_of header iov).length = LOGGER_ENTRY_SIZE + header_len iov := by
  have hle : header_len iov ≤ ki_left iov := min_le_left _ _
  unfold entry_of
  rw [length_append, length_header_bytes, length_take, length_flatten, List.map_map]
  change _ + min _ (ki_left iov) = _
  omega

theorem entry_of_isEntry (header : LoggerEntry) (iov : List Iovec) :
    IsEntry (entry_of header iov) := by
  have hle : header_len iov ≤ LOGGER_ENTRY_MAX_PAYLOAD := min_le_right _ _
  have hlen := length_entry_of header iov
  simp only [LOGGER_ENTRY_MAX_PAYLOAD, LOGGER_ENTRY_MAX_LEN, LOGGER_ENTRY_SIZE] at hle hlen
  constructor
  · refine ⟨UInt8.ofNat (header_len iov), UInt8.ofNat (header_len iov / 2 ^ 8), _, rfl, ?_⟩
    rw [length_entry_of, UInt8.toNat_ofNat', UInt8.toNat_ofNat']
    omega
  simp only [LOGGER_ENTRY_MAX_LEN]
  omega

/-- The number of bytes of some entries. -/
def flen (es : List Bytes) : Nat := es.flatten.length

@[simp] theorem flen_nil : flen [] = 0 := rfl

@[simp] theorem flen_cons (e : Bytes) (es : List Bytes) : flen (e :: es) = e.length + flen es := by
  simp [flen]

@[simp] theorem flen_append (es es' : List Bytes) : flen (es ++ es') = flen es + flen es' := by
  simp [flen]

/-- Entries are not empty, so only no entries have no bytes. -/
theorem eq_nil_of_flen (h : ∀ e ∈ es, IsEntry e) (hlen : flen es = 0) :
    es = [] := by
  cases es with
  | nil => rfl
  | cons e es =>
    have := (h e (by simp)).length_pos
    simp only [flen_cons] at hlen
    omega

/-! ## Offsets into the ring -/

theorem logger_offset_eq (hsize : log.size = 2 ^ order) (n : Nat) :
    logger_offset log n = n % log.size := by
  unfold logger_offset
  rw [hsize, and_two_pow_sub_one_eq_mod]

/-- The offset `off` stands behind the entries `old`, and the ring holds the
entries `es` from there on. -/
structure Cursor (size : Nat) (buffer : Nat → UInt8) (old es : List Bytes) (off : Nat) :
    Prop where
  off : off = flen old % size
  fits : flen es < size
  holds : Holds size buffer (flen old) es.flatten

variable {xs : Bytes} {room : Nat} {ret : Except Errno Int} {s : State}

theorem get_entry_len_of_holds (he : IsEntry e) (hsize : 1 < log.size)
    (h : Holds log.size log.buffer p (e ++ xs)) :
    get_entry_len log (p % log.size) = e.length := by
  obtain ⟨lo, hi, rest, rfl, hlen⟩ := he.len
  have hp := mod_lt p (show 0 < log.size by omega)
  have hlo : log.buffer (p % log.size) = lo := h 0 lo rfl
  have hhi : log.buffer ((p + 1) % log.size) = hi := h 1 hi rfl
  rw [hlen]
  unfold get_entry_len
  -- the two bytes of the length word, on one side of the end of the buffer or on both
  rcases add_mod_cases (n := log.size) (x := p) (y := 1) (by omega) (by omega) with ⟨hc, heq⟩ | ⟨hc, heq⟩
  · rw [if_neg (show ¬ log.size - p % log.size = 1 by omega), ← heq, hlo, hhi]
  have hz : (p + 1) % log.size = 0 := by omega
  rw [if_pos (show log.size - p % log.size = 1 by omega), ← hz, hlo, hhi]

theorem Cursor.get_entry_len (h : Cursor log.size log.buffer old (e :: es) off) (he : IsEntry e) :
    get_entry_len log off = e.length := by
  obtain ⟨lo, hi, rest, heq, _⟩ := he.len
  have hfits := h.fits
  rw [h.off]
  apply get_entry_len_of_holds he
  · rw [heq] at hfits
    simp at hfits
    omega
  exact h.holds

theorem Cursor.next (hsize : log.size = 2 ^ order)
    (h : Cursor log.size log.buffer old (e :: es) off) :
    Cursor log.size log.buffer (old ++ [e]) es (logger_offset log (off + e.length)) := by
  obtain ⟨hoff, hfits, hholds⟩ := h
  rw [flatten_cons, Holds.append_iff] at hholds
  simp only [flen_cons] at hfits
  constructor
  · rw [logger_offset_eq hsize, hoff, mod_add_mod]
    simp
  · omega
  · simpa using hholds.2

/-! ## Pulling readers forward -/

/-- `get_next_entry` finds the first entry at least `len` bytes on, if the
ring holds that many. -/
theorem get_next_entry_loop_spec (len : Nat)
    (hsize : log.size = 2 ^ order) (fuel : Nat)
    (hc : Cursor log.size log.buffer old es off) (hes : ∀ e ∈ es, IsEntry e) (hne : es ≠ [])
    (hfuel : len ≤ count + fuel) (hlen : len ≤ count + flen es) :
    ∃ mid es', es = mid ++ es' ∧ len ≤ count + flen mid ∧
      Cursor log.size log.buffer (old ++ mid) es' (get_next_entry_loop log len fuel off count) := by
  induction es generalizing fuel off count old with
  | nil => exact absurd rfl hne
  | cons e es ih => ?_
  have he := hes e (by simp)
  have hpos := he.length_pos
  have hnext := hc.next hsize
  simp only [flen_cons] at hlen
  unfold get_next_entry_loop
  simp only [hc.get_entry_len he]
  -- The loop adds the entry and looks then whether it has gone far enough.
  by_cases hstop : count + e.length < len
  · rw [if_pos hstop]
    cases fuel with
    | zero => omega
    | succ fuel => ?_
    have hne' : es ≠ [] := by
      intro hnil
      rw [hnil, flen_nil] at hlen
      omega
    obtain ⟨mid, es', heq, hmid, hcur⟩ := ih fuel hnext (fun e' he' => hes e' (by simp [he']))
      hne' (show len ≤ count + e.length + fuel by omega) (by omega)
    refine ⟨e :: mid, es', by simp [heq], ?_, by simpa using hcur⟩
    simp only [flen_cons]
    omega
  rw [if_neg hstop]
  exact ⟨[e], es, rfl, by simp only [flen_cons, flen_nil]; omega, hnext⟩

/-- The line from the write head, at position `p + d`, over `len` bytes
crosses the offset of position `p` exactly when it reaches `p` in the
next turn. -/
theorem clock_interval_iff {n d : Nat} (hd : d < n) (hlen : len < n) (hpos : 0 < len) :
    clock_interval ((p + d) % n) ((p + d + len) % n) (p % n) = true ↔ n ≤ d + len := by
  have hn : 0 < n := by omega
  have hp := mod_lt p hn
  unfold clock_interval
  -- Each of the two sums passes the end of the buffer or does not.
  rcases add_mod_cases (x := p) (y := d) (by omega) hn with ⟨h1, e1⟩ | ⟨h1, e1⟩
  all_goals
    rcases add_mod_cases (x := p + d) (y := len) (by omega) hn with ⟨h2, e2⟩ | ⟨h2, e2⟩
    all_goals
      split
      · simp only [decide_eq_true_eq]
        omega
      simp only [decide_eq_true_eq]
      omega

/-- `fix_up_readers` leaves more than `len` bytes of room behind an offset. -/
theorem fix_up_spec (hsize : log.size = 2 ^ order) (hlen : 2 * len ≤ log.size) (hpos : 0 < len)
    (hw : log.w_off = flen (old ++ es) % log.size) (hc : Cursor log.size log.buffer old es off)
    (hes : ∀ e ∈ es, IsEntry e) :
    ∃ mid es', es = mid ++ es' ∧ flen es' + len < log.size ∧
      Cursor log.size log.buffer (old ++ mid) es' (fix_up log len off) := by
  have hfits := hc.fits
  have hcross := clock_interval_iff (p := flen old) hfits (show len < log.size by omega) hpos
  unfold fix_up
  rw [hw, logger_offset_eq hsize, mod_add_mod, hc.off, flen_append]
  by_cases h : clock_interval ((flen old + flen es) % log.size)
      ((flen old + flen es + len) % log.size) (flen old % log.size) = true
  · rw [if_pos h, ← hc.off]
    have hge := hcross.mp h
    have hne : es ≠ [] := by
      intro hnil
      rw [hnil, flen_nil] at hge
      omega
    -- Skipping `len` bytes is enough, since less than the size was unread.
    obtain ⟨mid, es', heq, hmid, hcur⟩ := get_next_entry_loop_spec len hsize len
      hc hes hne (le_add_left _ _) (show len ≤ 0 + flen es by omega)
    refine ⟨mid, es', heq, ?_, hcur⟩
    rw [heq, flen_append] at hfits
    omega
  rw [if_neg h, ← hc.off]
  have hlt : ¬ log.size ≤ flen es + len := fun hle => h (hcross.mpr hle)
  exact ⟨[], es, rfl, by omega, by simpa using hc⟩

/-! ## Writing -/

/-- One of the copies of `do_write_log_from_user` fails. -/
def segment_faults (size w_off : Nat) (seg : Iovec) (count : Nat) : Bool :=
  let len := min count (size - w_off)
  (decide (len ≠ 0) && seg.fault₁.isSome) || (decide (count ≠ len) && seg.fault₂.isSome)

/-- One of the copies made for the segments fails. -/
def segments_fault (size len : Nat) : Nat → Nat → List Iovec → Bool
  | _, _, [] => false
  | w_off, ret, seg :: iov =>
    let count := min seg.iov_base.length (len - ret)
    segment_faults size w_off seg count ||
      segments_fault size len ((w_off + count) % size) (ret + count) iov

/-- One of the copies from user space of a write fails. -/
def copy_faults (log : LoggerLog) (iov : List Iovec) : Bool :=
  segments_fault log.size (header_len iov) ((log.w_off + LOGGER_ENTRY_SIZE) % log.size) 0 iov

/-- What a write of up to `len` bytes at position `p` leaves alone:
everything but the bytes and the write head, and of the bytes those
that lie before `p` and less than a turn behind the end of the write. -/
structure Kept (p len : Nat) (log log' : LoggerLog) : Prop where
  size : log'.size = log.size
  head : log'.head = log.head
  readers : log'.readers = log.readers
  frame : ∀ q ys, Holds log.size log.buffer q ys → q + ys.length ≤ p → p + len ≤ q + log.size →
    Holds log.size log'.buffer q ys

theorem Kept.refl (p len : Nat) (log : LoggerLog) : Kept p len log log :=
  ⟨rfl, rfl, rfl, fun _ _ h _ _ => h⟩

theorem Kept.trans {log'' : LoggerLog} (h : Kept p len log log')
    (h' : Kept p len log' log'') : Kept p len log log'' := by
  refine ⟨h'.size.trans h.size, h'.head.trans h.head, h'.readers.trans h.readers, ?_⟩
  intro q ys hq hp hlen
  rw [← h.size]
  apply h'.frame q ys _ hp
  · rw [h.size]
    exact hlen
  rw [h.size]
  exact h.frame q ys hq hp hlen

/-- Writing inside the bytes announced. -/
theorem Kept.put {k w_off : Nat} (hk : k + xs.length ≤ len) :
    Kept p len log
      { log with buffer := put log.size log.buffer ((p + k) % log.size) xs, w_off := w_off } := by
  refine ⟨rfl, rfl, rfl, ?_⟩
  intro q ys hq hp hlen
  exact hq.put_frame (by omega) (by omega)

theorem do_write_log_eq (log : LoggerLog) (hsize : log.size = 2 ^ order)
    (buf : Bytes) :
    do_write_log log buf =
      { log with
        buffer := put log.size log.buffer log.w_off buf
        w_off := (log.w_off + buf.length) % log.size } := by
  unfold do_write_log
  rw [logger_offset_eq hsize]
  by_cases h : buf.length ≤ log.size - log.w_off
  · simp [min_eq_left h, put_of_le h]
  have hmin : min buf.length (log.size - log.w_off) = log.size - log.w_off := by omega
  simp only [hmin]
  rw [if_pos (by omega)]
  rfl

theorem do_write_log_spec (buf : Bytes)
    (hsize : log.size = 2 ^ order) (hw : log.w_off = p % log.size) (hbuf : buf.length ≤ len)
    (hlen : len ≤ log.size) :
    Kept p len log (do_write_log log buf) ∧
    (do_write_log log buf).w_off = (p + buf.length) % log.size ∧
    Holds log.size (do_write_log log buf).buffer p buf := by
  rw [do_write_log_eq log hsize, hw]
  refine ⟨?_, mod_add_mod _ _ _, Holds.put _ _ (by omega)⟩
  exact Kept.put (k := 0) (by omega)

/-- A segment is written as a whole, or a copy fails, and what it leaves behind
is no longer than the segment. -/
theorem do_write_log_from_user_spec {seg : Iovec}
    (hsize : log.size = 2 ^ order) (hw : log.w_off < log.size)
    (hcount : count ≤ seg.iov_base.length) :
    (do_write_log_from_user log seg count =
      ({ log with
        buffer := put log.size log.buffer log.w_off (seg.iov_base.take count)
        w_off := (log.w_off + count) % log.size }, .ok count)) ∨
    (∃ junk : Bytes, junk.length ≤ count ∧ segment_faults log.size log.w_off seg count = true ∧
      do_write_log_from_user log seg count =
        ({ log with buffer := put log.size log.buffer log.w_off junk }, .error .EFAULT)) := by
  obtain ⟨base, fault₁, fault₂⟩ := seg
  have hbuf : (base.take count).length = count := length_take_of_le hcount
  unfold do_write_log_from_user segment_faults
  rw [logger_offset_eq hsize]
  by_cases hfit : count ≤ log.size - log.w_off
  · -- the segment ends before the end of the buffer
    have htake : (base.take count).take count = base.take count :=
      take_of_length_le (by omega)
    simp only [min_eq_left hfit, htake, ne_eq, not_true_eq_false, if_false]
    by_cases hz : count = 0
    · left
      subst hz
      simp [put_of_le]
    rw [if_pos hz]
    cases fault₁ with
    | none =>
      left
      simp only [copy_from_user]
      rw [put_of_le (by omega)]
    | some junk => ?_
    right
    refine ⟨junk.take count, by simp only [length_take]; omega, by simp [hz], ?_⟩
    rw [put_of_le (by simp only [length_take]; omega)]
    simp [copy_from_user, hbuf]
  -- The segment wraps around, and either copy may fail.
  have hmin : min count (log.size - log.w_off) = log.size - log.w_off := by omega
  have hlen : ((base.take count).take (log.size - log.w_off)).length = log.size - log.w_off := by
    rw [length_take, hbuf]
    omega
  have hne : log.size - log.w_off ≠ 0 := by omega
  have hne' : count ≠ log.size - log.w_off := by omega
  simp only [hmin, if_pos hne, if_pos hne']
  cases fault₁ with
  | some junk =>
    right
    refine ⟨junk.take (log.size - log.w_off), by simp only [length_take]; omega, by simp [hne], ?_⟩
    rw [put_of_le (by simp only [length_take]; omega)]
    simp [copy_from_user, hlen]
  | none => ?_
  cases fault₂ with
  | none =>
    left
    rfl
  | some junk => ?_
  right
  refine ⟨(base.take count).take (log.size - log.w_off) ++
    junk.take ((base.take count).drop (log.size - log.w_off)).length, ?_, by simp [hne'], ?_⟩
  · rw [length_append, hlen, length_take, length_drop, hbuf]
    omega
  rw [put_append hlen]
  simp [copy_from_user]

/-- The payload, cut at the end of its first segment. -/
theorem take_append_min (base rest : Bytes) (n : Nat) :
    (base ++ rest).take n =
      base.take (min base.length n) ++ rest.take (n - min base.length n) := by
  rw [take_append]
  by_cases h : base.length ≤ n
  · rw [min_eq_left h, take_of_length_le h, take_length]
  · rw [Nat.min_eq_right (by omega), Nat.sub_self, Nat.sub_eq_zero_of_le (by omega)]

/-- The loop over the segments: it writes the payload after what is there
already, or a copy fails and the write head is reset. -/
theorem write_segments_spec (orig : Nat) (iov : List Iovec)
    {ret : Nat} {sofar : Bytes} (hsize : log.size = 2 ^ order)
    (hlen : LOGGER_ENTRY_SIZE + len ≤ log.size) (hret : ret ≤ len)
    (hsofar : sofar.length = LOGGER_ENTRY_SIZE + ret)
    (hw : log.w_off = (p + sofar.length) % log.size)
    (hholds : Holds log.size log.buffer p sofar) :
    Kept p (LOGGER_ENTRY_SIZE + len) log (write_segments len orig log ret iov).1 ∧
    match write_segments len orig log ret iov with
    | (log', .ok _) =>
      let payload := ((iov.map Iovec.iov_base).flatten).take (len - ret)
      log'.w_off = (p + (sofar ++ payload).length) % log.size ∧
      Holds log.size log'.buffer p (sofar ++ payload)
    | (log', .error _) =>
      log'.w_off = orig ∧ segments_fault log.size len log.w_off ret iov = true := by
  induction iov generalizing log ret sofar with
  | nil =>
    refine ⟨Kept.refl _ _ _, ?_⟩
    simpa [write_segments] using ⟨hw, hholds⟩
  | cons seg iov ih => ?_
  have hn : 0 < log.size := by
    rw [hsize]
    exact Nat.two_pow_pos order
  have hcount : min seg.iov_base.length (len - ret) ≤ seg.iov_base.length := min_le_left _ _
  have hcount' : min seg.iov_base.length (len - ret) ≤ len - ret := min_le_right _ _
  have hw' : log.w_off < log.size := by
    rw [hw]
    exact mod_lt _ hn
  have hseg : segments_fault log.size len log.w_off ret (seg :: iov) = (segment_faults log.size
      log.w_off seg (min seg.iov_base.length (len - ret)) || segments_fault log.size len
        ((log.w_off + min seg.iov_base.length (len - ret)) % log.size)
        (ret + min seg.iov_base.length (len - ret)) iov) := rfl
  rw [write_segments]
  -- After a fault the loop is left and `w_off` set back to `orig`.
  rcases do_write_log_from_user_spec hsize hw' hcount with heq | ⟨junk, hjunk, hfault, heq⟩
  · have hxs : (seg.iov_base.take (min seg.iov_base.length (len - ret))).length =
        min seg.iov_base.length (len - ret) := length_take_of_le hcount
    have hpayload := take_append_min seg.iov_base ((iov.map Iovec.iov_base).flatten) (len - ret)
    generalize min seg.iov_base.length (len - ret) = count at *
    generalize seg.iov_base.take count = xs at *
    simp only [heq]
    -- What was written before is not overwritten: all of the entry fits.
    have hput : Holds log.size (put log.size log.buffer log.w_off xs) p (sofar ++ xs) := by
      rw [hw, Holds.append_iff]
      exact ⟨hholds.put_frame le_rfl (by omega), Holds.put _ _ (by omega)⟩
    have hkept : Kept p (LOGGER_ENTRY_SIZE + len) log
        { log with
          buffer := put log.size log.buffer log.w_off xs
          w_off := (log.w_off + count) % log.size } := by
      rw [hw]
      exact Kept.put (by omega)
    obtain ⟨hkept', hmatch⟩ := @ih
      { log with
        buffer := put log.size log.buffer log.w_off xs
        w_off := (log.w_off + count) % log.size }
      (ret + count) (sofar ++ xs) hsize hlen (by omega)
      (by rw [length_append]; omega)
      (by simp only [length_append, hw, hxs]; rw [mod_add_mod, add_assoc]) hput
    refine ⟨hkept.trans hkept', ?_⟩
    rw [map_cons, flatten_cons, hpayload, ← append_assoc, ← sub_add_eq]
    split at hmatch
    · exact hmatch
    · exact ⟨hmatch.1, by rw [hseg, hmatch.2, Bool.or_true]⟩
  simp only [heq]
  refine ⟨?_, trivial, by rw [hseg, hfault, Bool.true_or]⟩
  rw [hw]
  exact Kept.put (by omega)

/-! ## The invariant -/

/-- The ring is a window on the entries written, every offset is a cursor
in it, and has room for `room` more bytes behind it. What a reader got
are entries that its cursor has passed. -/
structure Window (order room : Nat) (log : LoggerLog) (written : List Bytes) : Prop where
  size : log.size = 2 ^ order
  entries : ∀ e ∈ written, IsEntry e
  head : ∃ old es, written = old ++ es ∧ flen es + room < log.size ∧
    Cursor log.size log.buffer old es log.head
  readers : ∀ r ∈ log.readers, ∃ old es, written = old ++ es ∧ r.got.Sublist old ∧
    flen es + room < log.size ∧ Cursor log.size log.buffer old es r.r_off

/-- The invariant of a log. -/
structure LogOk (order : Nat) (log : LoggerLog) (written : List Bytes) : Prop where
  window : Window order 0 log written
  w_off : log.w_off = flen written % log.size

theorem Window.no_room (h : Window order room log written) : Window order 0 log written := by
  refine ⟨h.size, h.entries, ?_, ?_⟩
  · obtain ⟨old, es, hsplit, _, hc⟩ := h.head
    exact ⟨old, es, hsplit, hc.fits, hc⟩
  intro r hr
  obtain ⟨old, es, hsplit, hgot, _, hc⟩ := h.readers r hr
  exact ⟨old, es, hsplit, hgot, hc.fits, hc⟩

/-- Pulling the offsets forward makes room. -/
theorem LogOk.fix_up_readers (h : LogOk order log written) (hlen : 2 * len ≤ log.size)
    (hpos : 0 < len) :
    Window order len (fix_up_readers log len) written := by
  obtain ⟨⟨hsize, hentries, hhead, hreaders⟩, hw⟩ := h
  have hfix : ∀ {off : Nat} {old es : List Bytes}, written = old ++ es → Cursor log.size log.buffer old es off →
      ∃ old' es', written = old' ++ es' ∧ old.Sublist old' ∧ flen es' + len < log.size ∧
        Cursor log.size log.buffer old' es' (fix_up log len off) := by
    intro off old es hsplit hc
    have hes : ∀ e ∈ es, IsEntry e := by
      intro e he
      apply hentries
      rw [hsplit]
      exact mem_append_right _ he
    rw [hsplit] at hw
    obtain ⟨mid, es', heq, hroom, hcur⟩ := fix_up_spec hsize hlen hpos hw hc hes
    exact ⟨old ++ mid, es', by rw [hsplit, heq, append_assoc], sublist_append_left _ _, hroom, hcur⟩
  refine ⟨hsize, hentries, ?_, ?_⟩
  · obtain ⟨old, es, hsplit, _, hc⟩ := hhead
    obtain ⟨old', es', hsplit', _, hroom, hc'⟩ := hfix hsplit hc
    exact ⟨old', es', hsplit', hroom, hc'⟩
  intro r' hr'
  obtain ⟨r, hr, rfl⟩ := mem_map.mp hr'
  obtain ⟨old, es, hsplit, hgot, _, hc⟩ := hreaders r hr
  obtain ⟨old', es', hsplit', hsub, hroom, hc'⟩ := hfix hsplit hc
  exact ⟨old', es', hsplit', hgot.trans hsub, hroom, hc'⟩

/-- A write leaves a cursor alone that has room for it. -/
theorem Cursor.kept (h : Cursor log.size log.buffer old es off)
    (hkept : Kept (flen (old ++ es)) len log log')
    (hroom : flen es + len < log.size) : Cursor log'.size log'.buffer old es off := by
  obtain ⟨hoff, hfits, hholds⟩ := h
  have hframe := hkept.frame _ _ hholds (by rw [flen_append]; rfl) (by rw [flen_append]; omega)
  rw [← hkept.size] at hoff hfits hframe
  exact ⟨hoff, hfits, hframe⟩

theorem Window.kept (h : Window order room log written)
    (hkept : Kept (flen written) room log log') :
    Window order room log' written := by
  obtain ⟨hsize, hentries, hhead, hreaders⟩ := h
  refine ⟨hkept.size.trans hsize, hentries, ?_, ?_⟩
  · obtain ⟨old, es, rfl, hroom, hc⟩ := hhead
    rw [hkept.head]
    exact ⟨old, es, rfl, by rw [hkept.size]; exact hroom, hc.kept hkept hroom⟩
  intro r hr
  rw [hkept.readers] at hr
  obtain ⟨old, es, rfl, hgot, hroom, hc⟩ := hreaders r hr
  exact ⟨old, es, rfl, hgot, by rw [hkept.size]; exact hroom, hc.kept hkept hroom⟩

/-- An entry at the write head comes in reach of a cursor with room for it. -/
theorem Cursor.append (h : Cursor log.size log.buffer old es off)
    (he : Holds log.size log.buffer (flen (old ++ es)) e)
    (hroom : flen es + e.length < log.size) : Cursor log.size log.buffer old (es ++ [e]) off := by
  obtain ⟨hoff, hfits, hholds⟩ := h
  rw [flen_append] at he
  refine ⟨hoff, by simpa using hroom, ?_⟩
  rw [flatten_append, Holds.append_iff, flatten_singleton]
  exact ⟨hholds, he⟩

theorem Window.append (h : Window order e.length log written) (he : IsEntry e)
    (hholds : Holds log.size log.buffer (flen written) e) :
    Window order 0 log (written ++ [e]) := by
  obtain ⟨hsize, hentries, hhead, hreaders⟩ := h
  refine ⟨hsize, ?_, ?_, ?_⟩
  · intro e' he'
    rcases mem_append.mp he' with he' | he'
    · exact hentries e' he'
    rw [mem_singleton.mp he']
    exact he
  · obtain ⟨old, es, rfl, hroom, hc⟩ := hhead
    exact ⟨old, es ++ [e], append_assoc _ _ _, by simpa using hroom, hc.append hholds hroom⟩
  intro r hr
  obtain ⟨old, es, rfl, hgot, hroom, hc⟩ := hreaders r hr
  exact ⟨old, es ++ [e], append_assoc _ _ _, hgot, by simpa using hroom, hc.append hholds hroom⟩

/-- With room for its entry a write appends the entry, or fails and resets
the write head to `orig`. -/
theorem write_entry_spec (orig : Nat)
    (header : LoggerEntry) (iov : List Iovec)
    (h : Window order (entry_of header iov).length log written)
    (hw : log.w_off = flen written % log.size) (hfits : (entry_of header iov).length ≤ log.size) :
    match write_segments (header_len iov) orig
      (do_write_log log (header.bytes (header_len iov))) 0 iov with
    | (log', .ok _) => LogOk order log' (written ++ [entry_of header iov])
    | (log', .error _) =>
      log'.w_off = orig ∧ copy_faults log iov = true ∧ Window order 0 log' written := by
  have hsize := h.size
  have hesize := length_entry_of header iov
  have hhdr := length_header_bytes header (header_len iov)
  -- First the header, then the segments behind it.
  obtain ⟨hkept, hw₁, hholds⟩ := do_write_log_spec (p := flen written)
    (header.bytes (header_len iov)) hsize hw (by omega) hfits
  generalize do_write_log log (header.bytes (header_len iov)) = log₁ at *
  have hsize₁ := hkept.size
  rw [← hsize₁] at hsize hw₁ hholds hfits
  rw [hesize] at hkept hfits
  obtain ⟨hkept', hmatch⟩ :=
    write_segments_spec orig iov hsize hfits (zero_le _) hhdr hw₁ hholds
  rw [← hesize] at hkept hkept'
  have hwin := h.kept (hkept.trans hkept')
  have hsize₂ := hkept'.size
  generalize write_segments (header_len iov) orig log₁ 0 iov = res at *
  obtain ⟨log', ret⟩ := res
  cases ret with
  | ok ret =>
    obtain ⟨hw', hholds'⟩ := hmatch
    have hentry : header.bytes (header_len iov) ++
        ((iov.map Iovec.iov_base).flatten).take (header_len iov - 0) = entry_of header iov := rfl
    rw [hentry, ← hsize₂] at hw' hholds'
    refine ⟨hwin.append (entry_of_isEntry header iov) hholds', ?_⟩
    rw [hw']
    simp
  -- What the failing write left lies behind the write head, where no cursor reads.
  | error e =>
    refine ⟨hmatch.1, ?_, hwin.no_room⟩
    unfold copy_faults
    rw [hw, mod_add_mod, ← hhdr, ← hsize₁, ← hw₁]
    exact hmatch.2

/-- The locked section of a write: it appends its entry, or resets the
write head to `orig`, and then the log is as before but for offsets
pulled forward. -/
theorem logger_aio_write_locked_spec (orig : Nat) (horder : 14 ≤ order)
    (h : LogOk order log written)
    (header : LoggerEntry) (iov : List Iovec) :
    match logger_aio_write_locked log orig header iov with
    | (log', .ok _) => LogOk order log' (written ++ [entry_of header iov])
    | (log', .error _) =>
      log'.w_off = orig ∧ copy_faults log iov = true ∧ Window order 0 log' written := by
  have hsize := h.window.size
  -- Two of the longest entries fit, which `fix_up_readers` needs.
  have hle : 2 ^ 14 ≤ log.size := by
    rw [hsize]
    exact Nat.pow_le_pow_right (by omega) horder
  have hesize := length_entry_of header iov
  have hmax : (entry_of header iov).length ≤ LOGGER_ENTRY_MAX_LEN := (entry_of_isEntry header iov).max
  unfold LOGGER_ENTRY_MAX_LEN at hmax
  have hpos := (entry_of_isEntry header iov).length_pos
  have hwin := h.fix_up_readers (show 2 * (entry_of header iov).length ≤ log.size by omega) hpos
  have hspec := write_entry_spec orig header iov hwin h.w_off
    (show (entry_of header iov).length ≤ log.size by omega)
  simp only [logger_aio_write_locked, ← hesize]
  exact hspec

/-! ## One operation -/

/-- A reader that took the entry at its cursor. -/
theorem Cursor.read (hsize : log.size = 2 ^ order)
    (h : Cursor log.size log.buffer old (e :: es) off) (fault₁ fault₂ : Bool) {bytes : Bytes}
    {r_off : Nat}
    (hread : do_read_log_to_user log off e.length fault₁ fault₂ = .ok (bytes, r_off)) :
    bytes = e ∧ Cursor log.size log.buffer (old ++ [e]) es r_off := by
  have hfits := h.fits
  have hnext := h.next hsize
  obtain ⟨hoff, _, hholds⟩ := h
  rw [flatten_cons, Holds.append_iff] at hholds
  simp only [flen_cons] at hfits
  have hget := hholds.1.get (by omega)
  rw [← hoff] at hget
  unfold do_read_log_to_user at hread
  simp only at hread
  split at hread
  · cases hread
  split at hread
  · cases hread
  obtain ⟨rfl, rfl⟩ := hread
  exact ⟨hget, hnext⟩

/-- There is something to read exactly when the write head is elsewhere. -/
theorem Cursor.at_end_iff (h : Cursor log.size log.buffer old es off) (hes : ∀ e ∈ es, IsEntry e)
    (hw : log.w_off = flen (old ++ es) % log.size) : off = log.w_off ↔ es = [] := by
  obtain ⟨hoff, hfits, _⟩ := h
  rw [hoff, hw, flen_append]
  constructor
  · intro heq
    apply eq_nil_of_flen hes
    by_contra hne
    exact mod_ne_of_lt (Nat.pos_of_ne_zero hne) hfits heq.symm
  intro hnil
  simp [hnil]

/-- What the invariant says of one reader. -/
def ReaderOk (log : LoggerLog) (written : List Bytes) (r : LoggerReader) : Prop :=
  ∃ old es, written = old ++ es ∧ r.got.Sublist old ∧ flen es + 0 < log.size ∧
    Cursor log.size log.buffer old es r.r_off

theorem logger_read_ok {r r' : LoggerReader} {nonblock signal fault₁ fault₂ : Bool}
    (h : LogOk order log written) (hr : ReaderOk log written r)
    (hread : logger_read log r count nonblock signal fault₁ fault₂ = some (r', ret)) :
    ReaderOk log written r' := by
  -- a read that returns an error leaves the reader alone
  have hsame : ∀ {e : Errno}, some (r, Except.error e) = some (r', ret) →
      ReaderOk log written r' := by
    intro e heq
    simp only [Option.some.injEq, Prod.mk.injEq] at heq
    exact heq.1 ▸ hr
  unfold logger_read at hread
  split at hread
  · split at hread
    · exact hsame hread
    split at hread
    · exact hsame hread
    · cases hread
  rename_i hne
  obtain ⟨old, es, hsplit, hgot, _, hc⟩ := hr
  have hw := h.w_off
  rw [hsplit] at hw
  have hes : ∀ e ∈ es, IsEntry e := by
    intro e he
    apply h.window.entries
    rw [hsplit]
    exact mem_append_right _ he
  cases es with
  -- The loop was left because there is something to read.
  | nil => exact absurd ((hc.at_end_iff hes hw).mpr rfl).symm hne
  | cons e es =>
    simp only [hc.get_entry_len (hes e (by simp))] at hread
    split at hread
    · exact hsame hread
    split at hread
    · exact hsame hread
    rename_i bytes r_off hdo
    obtain ⟨rfl, hc'⟩ := hc.read h.window.size fault₁ fault₂ hdo
    obtain ⟨rfl, _⟩ := hread
    refine ⟨old ++ [bytes], es, by simp [hsplit], hgot.append (List.Sublist.refl _), ?_, hc'⟩
    exact hc'.fits

/-- A write keeps the log in order, if it does not fail or `orig` is where the last entry
ends. -/
theorem LogOk.write (horder : 14 ≤ order) (h : LogOk order log written) (orig : Nat)
    (header : LoggerEntry) (iov : List Iovec)
    (horig : copy_faults log iov = true → orig = flen written % 2 ^ order) :
    let r := if header_len iov = 0 then (log, .ok 0)
      else logger_aio_write_locked log orig header iov
    LogOk order r.1 (written_after written header iov r.2) := by
  unfold written_after
  by_cases hz : header_len iov = 0
  · simp only [hz, if_true]
    exact h
  simp only [hz, if_false]
  have hspec := logger_aio_write_locked_spec orig horder h header iov
  generalize logger_aio_write_locked log orig header iov = res at *
  obtain ⟨log', ret⟩ := res
  cases ret with
  | ok ret => exact hspec
  | error e => ?_
  obtain ⟨hw, hfault, hwin⟩ := hspec
  refine ⟨hwin, ?_⟩
  rw [hw, hwin.size]
  exact horig hfault

theorem logger_ioctl_ok (h : LogOk order log written) (reader : Option LoggerReader)
    (fmode_write : Bool)
    (cmd : IoctlCmd) : LogOk order (logger_ioctl log reader fmode_write cmd).1 written := by
  cases cmd with
  | LOGGER_GET_LOG_BUF_SIZE => exact h
  | other => exact h
  | LOGGER_GET_LOG_LEN | LOGGER_GET_NEXT_ENTRY_LEN =>
    cases reader with
    | none => exact h
    | some r =>
      unfold logger_ioctl
      simp only
      split <;> exact h
  | LOGGER_FLUSH_LOG => ?_
  cases fmode_write with
  | false => exact h
  | true => ?_
  obtain ⟨⟨hsize, hentries, hhead, hreaders⟩, hw⟩ := h
  have hn : 0 < log.size := by
    rw [hsize]
    exact Nat.two_pow_pos order
  -- every offset now stands at the write head
  have hend : Cursor log.size log.buffer written [] log.w_off := ⟨hw, hn, Holds.nil _ _ _⟩
  refine ⟨⟨hsize, hentries, ⟨written, [], by simp, hn, hend⟩, ?_⟩, hw⟩
  intro r' hr'
  obtain ⟨r, hr, rfl⟩ := mem_map.mp hr'
  obtain ⟨old, es, hsplit, hgot, _, _⟩ := hreaders r hr
  refine ⟨written, [], by simp, ?_, hn, hend⟩
  rw [hsplit]
  exact hgot.trans (sublist_append_left _ _)

theorem written_after_append (written : List Bytes) (header : LoggerEntry) (iov : List Iovec)
    (ret : Except Errno Int) : ∃ more, written_after written header iov ret = written ++ more := by
  unfold written_after
  cases ret with
  | ok n =>
    by_cases hz : header_len iov = 0
    · exact ⟨[], by simp [hz]⟩
    · exact ⟨[entry_of header iov], by simp [hz]⟩
  | error e => exact ⟨[], by simp⟩

/-- **Step lemma**: every operation keeps the invariant, and none takes an entry back. -/
theorem LogOk.step (horder : 14 ≤ order) {s' : State} {l : Label}
    (h : LogOk order s.log s.written)
    (hop : run_op s l = some (s', ret)) :
    LogOk order s'.log s'.written ∧ ∃ more, s'.written = s.written ++ more := by
  have hsame : s.written = s.written ++ [] := (append_nil _).symm
  obtain ⟨⟨hsize, hentries, hhead, hreaders⟩, hw⟩ := id h
  cases l with
  | logger_open kmalloc =>
    cases kmalloc with
    | false =>
      simp only [run_op, if_true, Option.some.injEq, Prod.mk.injEq] at hop
      exact hop.1 ▸ ⟨h, [], hsame⟩
    | true => ?_
    obtain ⟨rfl, _⟩ := hop
    refine ⟨⟨⟨hsize, hentries, hhead, ?_⟩, hw⟩, [], hsame⟩
    intro r hr
    rcases mem_append.mp hr with hr | hr
    · exact hreaders r hr
    -- A new reader starts at `head`.
    obtain rfl := mem_singleton.mp hr
    obtain ⟨old, es, hsplit, hroom, hc⟩ := hhead
    exact ⟨old, es, hsplit, nil_sublist _, hroom, hc⟩
  | logger_release reader =>
    obtain ⟨rfl, _⟩ := hop
    exact ⟨⟨⟨hsize, hentries, hhead, fun r hr => hreaders r (mem_of_mem_filter hr)⟩, hw⟩, [], hsame⟩
  | logger_aio_write header iov =>
    obtain ⟨rfl, _⟩ := hop
    exact ⟨h.write horder _ header iov fun _ => hsize ▸ hw, written_after_append _ _ _ _⟩
  | logger_read reader count nonblock signal fault₁ fault₂ =>
    obtain ⟨r, hr, hop⟩ := bind_eq_some_iff.mp hop
    obtain ⟨⟨r', ret'⟩, hread, heq⟩ := map_eq_some_iff.mp hop
    obtain ⟨rfl, _⟩ := heq
    have hr' := logger_read_ok h (hreaders r (Arena.mem_of_at? hr).1) hread
    exact ⟨⟨⟨hsize, hentries, hhead, Arena.modify_forall hreaders fun _ _ _ => hr'⟩, hw⟩, [], hsame⟩
  | logger_ioctl reader fmode_write cmd =>
    cases reader with
    | none =>
      obtain ⟨rfl, _⟩ := hop
      exact ⟨logger_ioctl_ok h none fmode_write cmd, [], hsame⟩
    | some reader =>
      obtain ⟨r, _, heq⟩ := map_eq_some_iff.mp hop
      obtain ⟨rfl, _⟩ := heq
      exact ⟨logger_ioctl_ok h (some r) fmode_write cmd, [], hsame⟩

theorem log_ok_initial (order : Nat) :
    LogOk order (initialState order).log (initialState order).written := by
  have hn : 0 < 2 ^ order := Nat.two_pow_pos order
  refine ⟨⟨rfl, by simp [initialState], ⟨[], [], rfl, hn, ?_, hn, Holds.nil _ _ _⟩, ?_⟩, ?_⟩
  · simp [initialState]
  · intro r hr
    simp [initialState] at hr
  · simp [initialState]

/-- **Run lemma**: the invariant holds in every reachable state. -/
theorem log_ok_reachable (horder : 14 ≤ order)
    (h : (logger order).Reachable s) : LogOk order s.log s.written := by
  apply System.invariant (P := fun s => LogOk order s.log s.written) _ _ h
  · intro s hs
    rw [hs]
    exact log_ok_initial order
  intro s l s' hs hstep
  obtain ⟨⟨s'', ret⟩, hop, rfl⟩ := map_eq_some_iff.mp hstep
  exact (hs.step horder hop).1

/-! ## What can be read -/

/-- From a cursor the entries up to the write head are found. -/
theorem Cursor.entries_from (hsize : log.size = 2 ^ order)
    (hc : Cursor log.size log.buffer old es off) (hes : ∀ e ∈ es, IsEntry e)
    (hw : log.w_off = flen (old ++ es) % log.size) (fuel : Nat) (hfuel : flen es ≤ fuel) :
    entries_from log fuel off = some es := by
  induction es generalizing fuel off old with
  | nil =>
    unfold Logger.entries_from
    rw [if_pos ((hc.at_end_iff hes hw).mpr rfl)]
  | cons e es ih => ?_
  have he := hes e (by simp)
  have hpos := he.length_pos
  have hfits := hc.fits
  simp only [flen_cons] at hfuel hfits
  have hne : off ≠ log.w_off := by
    intro heq
    have := (hc.at_end_iff hes hw).mp heq
    simp at this
  -- the entry does not reach past the write head
  have hdist : (log.w_off + log.size - off) % log.size = e.length + flen es := by
    rw [hc.off, hw, flen_append, flen_cons]
    exact distance_eq hfits
  have hget : RingBuffer.get log.size log.buffer off e.length = e := by
    have hholds := hc.holds
    rw [flatten_cons, Holds.append_iff] at hholds
    rw [hc.off]
    exact hholds.1.get (by omega)
  cases fuel with
  | zero => omega
  | succ fuel => ?_
  have hrest := ih (hc.next hsize) (fun e' he' => hes e' (by simp [he']))
    (by simpa using hw) fuel (by omega)
  unfold Logger.entries_from
  rw [if_neg hne]
  simp only [hc.get_entry_len he, hdist]
  rw [if_neg (by omega), hrest, hget]
  rfl

/-- From every offset of a log in order the entries are the last ones
written. -/
theorem LogOk.entries_from (h : LogOk order log written) (hsplit : written = old ++ es)
    (hc : Cursor log.size log.buffer old es off) : entries_from log log.size off = some es := by
  have hw := h.w_off
  rw [hsplit] at hw
  apply hc.entries_from h.window.size _ hw
  · exact hc.fits.le
  intro e he
  apply h.window.entries
  rw [hsplit]
  exact mem_append_right _ he

theorem order_of_size (hsize : 4 * LOGGER_ENTRY_MAX_LEN ≤ 2 ^ order) :
    14 ≤ order := by
  by_contra hlt
  have := Nat.pow_lt_pow_right (show 1 < 2 by omega) (show order < 14 by omega)
  simp only [LOGGER_ENTRY_MAX_LEN] at hsize
  omega

/-- **The log is never torn**: in every state of a log of at least
`4 * LOGGER_ENTRY_MAX_LEN` bytes, from `head` and from the offset of
every reader a whole number of entries leads up to the write head, they
are the last entries written, and what each reader has got are entries
written, in order and each at most once. -/
theorem entries_readable {order : Nat} (hsize : 4 * LOGGER_ENTRY_MAX_LEN ≤ 2 ^ order) {s : State}
    (h : (logger order).Reachable s) :
    (∃ es, entries_from s.log s.log.size s.log.head = some es ∧ es <:+ s.written) ∧
    ∀ r ∈ s.log.readers,
      (∃ es, entries_from s.log s.log.size r.r_off = some es ∧ es <:+ s.written) ∧
      r.got.Sublist s.written := by
  have hok := log_ok_reachable (order_of_size hsize) h
  constructor
  · obtain ⟨old, es, hsplit, _, hc⟩ := hok.window.head
    exact ⟨es, hok.entries_from hsplit hc, old, hsplit.symm⟩
  intro r hr
  obtain ⟨old, es, hsplit, hgot, _, hc⟩ := hok.window.readers r hr
  refine ⟨⟨es, hok.entries_from hsplit hc, old, hsplit.symm⟩, ?_⟩
  rw [hsplit]
  exact hgot.trans (sublist_append_left _ _)

/-- A reader that has read the first of two entries. -/
theorem entries_readable_two :
    ∃ s, (logger 14).Reachable s ∧ s.written.length = 2 ∧
      s.log.readers.map (fun r => r.got.length) = [1] ∧
      ∀ r ∈ s.log.readers,
        (∃ es, entries_from s.log s.log.size r.r_off = some es ∧ es <:+ s.written) ∧
        r.got.Sublist s.written := by
  let header : LoggerEntry := ⟨0, 1, 1, 7, 0⟩
  let run : List Label :=
    [.logger_open true, .logger_aio_write header [⟨[65], none, none⟩],
      .logger_aio_write header [⟨[66, 67], none, none⟩], .logger_read 0 4096 false false false false]
  obtain ⟨s, hreach, hwritten, hgot⟩ : ∃ s, (logger 14).Reachable s ∧ s.written.length = 2 ∧
      s.log.readers.map (fun r => r.got.length) = [1] :=
    System.exists_of_replay run rfl (by decide +kernel)
  exact ⟨s, hreach, hwritten, hgot, (entries_readable (by decide) hreach).2⟩

/-- **What a reader is told.** In every state, with the entries that a reader has still to get:
`LOGGER_GET_LOG_LEN` returns how many bytes they have, and `LOGGER_GET_NEXT_ENTRY_LEN` how many
the first of them has, or 0. -/
theorem ioctl_tells_unread {order : Nat} (hsize : 4 * LOGGER_ENTRY_MAX_LEN ≤ 2 ^ order)
    (h : (logger order).Reachable s) (w : Bool) : ∀ r ∈ s.log.readers,
      ∃ es, entries_from s.log s.log.size r.r_off = some es ∧ es <:+ s.written ∧
      logger_ioctl s.log (some r) w .LOGGER_GET_LOG_LEN = (s.log, .ok (es.flatten.length : Nat)) ∧
      logger_ioctl s.log (some r) w .LOGGER_GET_NEXT_ENTRY_LEN =
        (s.log, .ok ((es.headD []).length : Nat)) := by
  intro r hr
  have hok := log_ok_reachable (order_of_size hsize) h
  obtain ⟨old, es, hsplit, _, _, hc⟩ := hok.window.readers r hr
  have hes : ∀ e ∈ es, IsEntry e := by
    intro e he
    exact hok.window.entries e (hsplit ▸ mem_append_right _ he)
  have hw := hok.w_off
  rw [hsplit] at hw
  refine ⟨es, hok.entries_from hsplit hc, ⟨old, hsplit.symm⟩, ?_, ?_⟩
  · have hlen : flen es = if s.log.w_off ≥ r.r_off then s.log.w_off - r.r_off
        else s.log.size - r.r_off + s.log.w_off := by
      have hfits := hc.fits
      have hlt : r.r_off < s.log.size := hc.off ▸ mod_lt _ (by omega)
      have hturn := @add_mod_cases _ (flen old) _ hfits.le (by omega)
      rw [← flen_append, ← hw, ← hc.off] at hturn
      split <;> omega
    unfold flen at hlen
    rw [hlen, logger_ioctl]
    split <;> rfl
  have hend := hc.at_end_iff hes hw
  cases es with
  | nil => simp [logger_ioctl, hend.mpr rfl]
  | cons e es =>
    have hne : s.log.w_off ≠ r.r_off := by
      intro heq
      cases hend.mp heq.symm
    simp [logger_ioctl, hne, hc.get_entry_len (hes e mem_cons_self)]

/-- One byte behind a header. -/
theorem ioctl_tells_unread_one : ∃ s, (logger 14).Reachable s ∧ ∃ r ∈ s.log.readers, ∃ es,
    es <:+ s.written ∧ logger_ioctl s.log (some r) false .LOGGER_GET_LOG_LEN =
      (s.log, .ok (es.flatten.length : Nat)) := by
  obtain ⟨s, hreach, hne⟩ : ∃ s, (logger 14).Reachable s ∧ s.log.readers ≠ [] :=
    System.exists_of_replay [.logger_open true, .logger_aio_write ⟨0, 1, 1, 7, 0⟩ [⟨[65], none, none⟩]]
      rfl (by decide +kernel)
  obtain ⟨r, hr⟩ := exists_mem_of_ne_nil _ hne
  obtain ⟨es, _, hes, hlen, _⟩ := ioctl_tells_unread (by decide) hreach false r hr
  exact ⟨s, hreach, r, hr, es, hes, hlen⟩

end Nubernel.Logger
