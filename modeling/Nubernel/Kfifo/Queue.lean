import Nubernel.Lib.RingBuffer
import Nubernel.Lib.Word

/-! # Kernel fifos (kernel/kfifo.c)

The offsets `in` and `out` of a fifo count bytes modulo `2 ^ 32` and are
reduced modulo its size, a power of two, only to reach into the buffer.
Since the size divides `2 ^ 32` they stand for positions on an unbounded
tape; a fifo then is a queue of bytes with the capacity of its buffer.
-/

open List Nat RingBuffer

set_option linter.style.nameCheck false

namespace Nubernel.Kfifo

variable {α : Type}

/-! ## Model -/

/-- `struct kfifo` and its buffer. -/
structure kfifo (α : Type) where
  buffer : Nat → α
  size : Nat
  in_ : Nat
  out : Nat

def kfifo_len (f : kfifo α) : Nat := sub32 f.in_ f.out

def kfifo_avail (f : kfifo α) : Nat := sub32 f.size (kfifo_len f)

def __kfifo_off (f : kfifo α) (off : Nat) : Nat := off &&& (f.size - 1)

/-- The bytes are put in up to the end of the buffer, the rest (if any)
at its beginning. -/
def __kfifo_in_data (f : kfifo α) (data : List α) (off : Nat) : Nat → α :=
  let off := __kfifo_off f (add32 f.in_ off)
  let l := min data.length (f.size - off)
  memcpy (memcpy f.buffer off (data.take l)) 0 (data.drop l)

def __kfifo_out_data (f : kfifo α) (len off : Nat) : List α :=
  let off := __kfifo_off f (add32 f.out off)
  let l := min len (f.size - off)
  slice f.buffer off l ++ slice f.buffer 0 (len - l)

/-- `kfifo_in` with the bytes at `from`, and the number of them that were copied. -/
def kfifo_in (f : kfifo α) (data : List α) : kfifo α × Nat :=
  let len := min (kfifo_avail f) data.length
  ({ f with buffer := __kfifo_in_data f (data.take len) 0, in_ := add32 f.in_ len }, len)

/-- `kfifo_out`, and the bytes that are now at `to`. -/
def kfifo_out (f : kfifo α) (len : Nat) : kfifo α × List α :=
  let len := min (kfifo_len f) len
  ({ f with out := add32 f.out len }, __kfifo_out_data f len 0)

def kfifo_skip (f : kfifo α) (len : Nat) : kfifo α :=
  if len < kfifo_len f then { f with out := add32 f.out len } else { f with out := f.in_ }

inductive Op (α : Type) where
  | kfifo_in (data : List α)
  | kfifo_out (len : Nat)
  | kfifo_skip (len : Nat)

/-- What a caller sees: the number returned, and the bytes copied out. -/
structure Result (α : Type) where
  ret : Nat
  data : List α

def kfifo.exec (f : kfifo α) : Op α → kfifo α × Result α
  | .kfifo_in data => ((kfifo_in f data).1, ⟨(kfifo_in f data).2, []⟩)
  | .kfifo_out len => ((kfifo_out f len).1, ⟨(kfifo_out f len).2.length, (kfifo_out f len).2⟩)
  | .kfifo_skip len => (kfifo_skip f len, ⟨0, []⟩)

/-- Carry out operations one after the other. -/
def run {σ : Type} (exec : σ → Op α → σ × Result α) (s : σ) : List (Op α) → σ × List (Result α)
  | [] => (s, [])
  | op :: ops =>
    let (s, r) := exec s op
    let (s, rs) := run exec s ops
    (s, r :: rs)

/-! ## The queue -/

/-- The operations on a queue of bytes with a capacity. -/
def queue (capacity : Nat) (q : List α) : Op α → List α × Result α
  | .kfifo_in data =>
    let fits := data.take (capacity - q.length)
    (q ++ fits, ⟨fits.length, []⟩)
  | .kfifo_out len => (q.drop len, ⟨(q.take len).length, q.take len⟩)
  | .kfifo_skip len => (q.drop len, ⟨0, []⟩)

/-- The fifo has the bytes of the queue, from the position `pos` of the tape on. -/
structure Rep (f : kfifo α) (q : List α) (pos : Nat) : Prop where
  size : ∃ k ≤ 31, f.size = 2 ^ k
  out : f.out = pos % 2 ^ 32
  in_ : f.in_ = (pos + q.length) % 2 ^ 32
  fits : q.length ≤ f.size
  holds : Holds f.size f.buffer pos q

variable {f : kfifo α} {q : List α} {pos : Nat}

/-- An offset stands for a position of the tape. -/
theorem off_eq {x : Nat} (h : ∃ k ≤ 31, f.size = 2 ^ k) : __kfifo_off f (x % 2 ^ 32) = x % f.size := by
  obtain ⟨k, hk, hsize⟩ := h
  unfold __kfifo_off
  rw [hsize, and_two_pow_sub_one_eq_mod, mod_mod_of_dvd]
  exact pow_dvd_pow 2 (by omega)

section
variable (h : Rep f q pos)
include h

theorem Rep.size_lt : 0 < f.size ∧ f.size < 2 ^ 32 := by
  obtain ⟨k, hk, hsize⟩ := h.size
  rw [hsize]
  exact ⟨Nat.two_pow_pos k, Nat.pow_lt_pow_right (by decide) (by omega)⟩

theorem Rep.len : kfifo_len f = q.length := by
  have hsize := h.size_lt
  have hfits := h.fits
  unfold kfifo_len sub32
  rw [h.in_, h.out]
  omega

theorem Rep.avail : kfifo_avail f = f.size - q.length := by
  unfold kfifo_avail
  rw [h.len]
  exact sub32_eq h.size_lt.2 h.fits

theorem Rep.in_off (off : Nat) :
    __kfifo_off f (add32 f.in_ off) = (pos + q.length + off) % f.size := by
  rw [← off_eq h.size]
  unfold add32
  rw [h.in_]
  congr 1
  omega

theorem Rep.out_off (off : Nat) : __kfifo_off f (add32 f.out off) = (pos + off) % f.size := by
  rw [← off_eq h.size]
  unfold add32
  rw [h.out]
  congr 1
  omega

theorem Rep.in_data (data : List α) (off : Nat) : __kfifo_in_data f data off =
    put f.size f.buffer ((pos + q.length + off) % f.size) data := by
  unfold __kfifo_in_data put
  simp only [h.in_off]
  rcases le_total data.length (f.size - (pos + q.length + off) % f.size) with hle | hle
  · rw [min_eq_left hle, take_of_length_le hle, drop_of_length_le hle, take_length, drop_length]
  · rw [min_eq_right hle]

/-- Bytes that were put behind the others are appended. -/
theorem Rep.extend {buffer : Nat → α} {data : List α} (hfits : q.length + data.length ≤ f.size)
    (hbuf : Holds f.size buffer pos (q ++ data)) :
    Rep { f with buffer := buffer, in_ := add32 f.in_ data.length } (q ++ data) pos := by
  refine ⟨h.size, h.out, ?_, by simpa using hfits, hbuf⟩
  show add32 f.in_ data.length = _
  unfold add32
  rw [h.in_, length_append]
  omega

theorem Rep.append {data : List α} (hfits : q.length + data.length ≤ f.size) :
    Rep { f with buffer := __kfifo_in_data f data 0, in_ := add32 f.in_ data.length }
      (q ++ data) pos := by
  refine h.extend hfits ?_
  rw [h.in_data]
  refine Holds.append_iff.mpr ⟨?_, ?_⟩
  · exact h.holds.put_frame le_rfl (by show pos + q.length + data.length ≤ pos + f.size; omega)
  · exact Holds.put f.buffer (pos + q.length) (by omega)

/-- The first bytes are dropped. -/
theorem Rep.advance {n : Nat} (hn : n ≤ q.length) :
    Rep { f with out := add32 f.out n } (q.drop n) (pos + n) := by
  refine ⟨h.size, ?_, ?_, ?_, ?_⟩
  · show add32 f.out n = _
    unfold add32
    rw [h.out]
    omega
  · rw [h.in_, length_drop]
    congr 1
    omega
  · rw [length_drop]
    exact le_trans (sub_le _ _) h.fits
  have hsplit := h.holds
  rw [← take_append_drop n q, Holds.append_iff, length_take, min_eq_left hn] at hsplit
  exact hsplit.2

theorem Rep.read {n off : Nat} (hn : off + n ≤ q.length) :
    __kfifo_out_data f n off = (q.drop off).take n := by
  have hfits := h.fits
  have hsplit := (h.advance (show off ≤ q.length by omega)).holds
  rw [← take_append_drop n (q.drop off), Holds.append_iff] at hsplit
  have hlen : ((q.drop off).take n).length = n := by
    rw [length_take, length_drop]
    omega
  have hget := hsplit.1.get (by rw [hlen]; show n ≤ f.size; omega)
  rw [hlen] at hget
  unfold __kfifo_out_data
  simp only [h.out_off]
  exact hget

/-! ## Refinement -/

/-- One operation does to the fifo what it does to the queue. -/
theorem Rep.exec (op : Op α) :
    ∃ pos', Rep (f.exec op).1 (queue f.size q op).1 pos' ∧
      (f.exec op).2 = (queue f.size q op).2 ∧ (f.exec op).1.size = f.size := by
  have hfits := h.fits
  cases op with
  | kfifo_in data =>
    have hlen : (data.take (f.size - q.length)).length = min (f.size - q.length) data.length :=
      length_take
    have hrep := @Rep.append α f q pos h (data.take (f.size - q.length)) (by omega)
    have htake : data.take (min (f.size - q.length) data.length) =
        data.take (f.size - q.length) := by
      rw [← take_take, take_length]
    refine ⟨pos, ?_, ?_, rfl⟩
    · simp only [kfifo.exec, kfifo_in, queue, h.avail, htake]
      rw [← hlen]
      exact hrep
    simp [kfifo.exec, kfifo_in, queue, h.avail, hlen]
  | kfifo_out len =>
    have hmin : min q.length len ≤ q.length := min_le_left _ _
    have htake : q.take (min q.length len) = q.take len := by
      rw [min_comm, ← take_take, take_length]
    have hdrop : q.drop (min q.length len) = q.drop len := by
      grind
    have hrep := h.advance hmin
    rw [hdrop] at hrep
    refine ⟨pos + min q.length len, ?_, ?_, rfl⟩
    · simp only [kfifo.exec, kfifo_out, queue, h.len]
      exact hrep
    simp [kfifo.exec, kfifo_out, queue, h.len, h.read (show 0 + min q.length len ≤ q.length by omega), htake]
  | kfifo_skip len =>
    by_cases hlt : len < q.length
    · refine ⟨pos + len, ?_, rfl, ?_⟩
      · simp only [kfifo.exec, kfifo_skip, queue, h.len, if_pos hlt]
        exact h.advance (by omega)
      simp [kfifo.exec, kfifo_skip, h.len, if_pos hlt]
    -- Everything is skipped: `kfifo_reset_out`.
    have hall : add32 f.out q.length = f.in_ := by
      unfold add32
      rw [h.out, h.in_]
      omega
    have hrep := h.advance (le_refl q.length)
    rw [hall, drop_length] at hrep
    refine ⟨pos + q.length, ?_, rfl, ?_⟩
    · simp only [kfifo.exec, kfifo_skip, queue, h.len, if_neg hlt,
        drop_of_length_le (Nat.le_of_not_lt hlt)]
      exact hrep
    simp [kfifo.exec, kfifo_skip, h.len, if_neg hlt]

theorem Rep.run (ops : List (Op α)) :
    (Kfifo.run kfifo.exec f ops).2 = (Kfifo.run (queue f.size) q ops).2 ∧
      (Kfifo.run kfifo.exec f ops).1.size = f.size ∧
      ∃ pos', Rep (Kfifo.run kfifo.exec f ops).1 (Kfifo.run (queue f.size) q ops).1 pos' := by
  induction ops generalizing f q pos with
  | nil => exact ⟨rfl, rfl, pos, h⟩
  | cons op ops ih => ?_
  obtain ⟨pos', hrep, hres, hsize⟩ := h.exec op
  have hrest := ih hrep
  rw [hsize] at hrest
  simp only [Kfifo.run]
  rw [hres, hrest.1]
  exact ⟨rfl, hrest.2⟩

end

theorem Rep.empty (buffer : Nat → α) {k start : Nat} (hk : k ≤ 31) (hstart : start < 2 ^ 32) :
    Rep ⟨buffer, 2 ^ k, start, start⟩ ([] : List α) start := by
  have hmod : start = start % 2 ^ 32 := by omega
  exact ⟨⟨k, hk, rfl⟩, hmod, hmod, zero_le _, Holds.nil _ _ _⟩

/-- Over every sequence of operations, from an empty fifo whose offsets may be anywhere, the
results are those of a queue of the fifo's size, and its length is that of the queue. -/
theorem kfifo_is_queue (buffer : Nat → α) {k start : Nat} (hk : k ≤ 31) (hstart : start < 2 ^ 32)
    (ops : List (Op α)) :
    (run kfifo.exec ⟨buffer, 2 ^ k, start, start⟩ ops).2 = (run (queue (2 ^ k)) [] ops).2 ∧
      kfifo_len (run kfifo.exec ⟨buffer, 2 ^ k, start, start⟩ ops).1 =
        (run (queue (2 ^ k)) [] ops).1.length ∧
      (run (queue (2 ^ k)) [] ops).1.length ≤ 2 ^ k := by
  obtain ⟨hres, hsize, pos', hrep'⟩ := (Rep.empty buffer hk hstart).run ops
  have hfits := hrep'.fits
  rw [hsize] at hfits
  exact ⟨hres, hrep'.len, hfits⟩

/-- The offsets wrap around `2 ^ 32`, and the bytes the end of the buffer. -/
theorem kfifo_is_queue_wraps :
    (run kfifo.exec ⟨fun _ => 0, 2 ^ 2, 2 ^ 32 - 1, 2 ^ 32 - 1⟩
      [.kfifo_in [1, 2, 3], .kfifo_skip 1, .kfifo_in [4, 5, 6], .kfifo_out 9]).2 =
    (run (queue (2 ^ 2)) [] [.kfifo_in [1, 2, 3], .kfifo_skip 1, .kfifo_in [4, 5, 6],
      .kfifo_out 9]).2 :=
  (kfifo_is_queue (fun _ => 0) (by decide) (by decide) _).1

/-! ## Peeking -/

/-- The number of bytes that are copied, and the bytes that are now at `to`. -/
def kfifo_out_peek (f : kfifo α) (len offset : Nat) : Nat × List α :=
  let len := min (kfifo_len f) (add32 len offset)
  (len, __kfifo_out_data f len offset)

theorem Rep.out_peek_iff (h : Rep f q pos) {len offset : Nat} (hlen : len < 2 ^ 32)
    (hoff : offset < 2 ^ 32) :
    kfifo_out_peek f len offset =
        (min len (kfifo_len f - offset), (q.drop offset).take len) ↔
      offset = 0 ∨ kfifo_len f = 0 ∨ len + offset = 2 ^ 32 + (kfifo_len f - offset) := by
  unfold kfifo_out_peek add32
  rw [h.len, Prod.mk.injEq]
  -- The bytes are right when their number is.
  have hbytes : min q.length ((len + offset) % 2 ^ 32) = min len (q.length - offset) →
      __kfifo_out_data f (min q.length ((len + offset) % 2 ^ 32)) offset =
        (q.drop offset).take len := by
    intro heq
    rw [heq, ← length_drop]
    by_cases hle : offset ≤ q.length
    · rw [h.read (by rw [length_drop]; omega), ← take_take, take_length]
    rw [drop_of_length_le (by omega)]
    simp [__kfifo_out_data, slice]
  constructor
  · rintro ⟨hnum, -⟩
    omega
  intro hcond
  have hnum : min q.length ((len + offset) % 2 ^ 32) = min len (q.length - offset) := by
    omega
  exact ⟨hnum, hbytes hnum⟩

/-- In every state of a fifo, exactly when this is so a peek copies the queued bytes from
`offset` on, as many as there are and as fit into `len` bytes. -/
theorem kfifo_out_peek_correct_iff (buffer : Nat → α) {k start : Nat} (hk : k ≤ 31)
    (hstart : start < 2 ^ 32) (ops : List (Op α)) {len offset : Nat} (hlen : len < 2 ^ 32)
    (hoff : offset < 2 ^ 32) :
    let f := (run kfifo.exec ⟨buffer, 2 ^ k, start, start⟩ ops).1
    let q := (run (queue (2 ^ k)) [] ops).1
    kfifo_out_peek f len offset =
        (min len (kfifo_len f - offset), (q.drop offset).take len) ↔
      offset = 0 ∨ kfifo_len f = 0 ∨ len + offset = 2 ^ 32 + (kfifo_len f - offset) := by
  obtain ⟨_, _, pos, hrep⟩ := (Rep.empty buffer hk hstart).run ops
  exact hrep.out_peek_iff hlen hoff

theorem kfifo_out_peek_correct_front :
    kfifo_out_peek (run kfifo.exec ⟨fun _ => 0, 2 ^ 2, 7, 7⟩ [.kfifo_in [1, 2, 3]]).1 2 0 =
      (2, [1, 2]) :=
  (kfifo_out_peek_correct_iff (fun _ => 0) (by decide) (by decide) [.kfifo_in [1, 2, 3]]
    (by decide) (by decide)).mpr (.inl rfl)

/-- Two bytes are written to a place for one. -/
theorem kfifo_out_peek_overruns :
    kfifo_out_peek (run kfifo.exec ⟨fun _ => 0, 2 ^ 2, 0, 0⟩ [.kfifo_in [1, 2, 3]]).1 1 1 =
      (2, [2, 3]) := by decide

end Nubernel.Kfifo
