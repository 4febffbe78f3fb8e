import Nubernel.Framework.System
import Nubernel.Kfifo.Queue

/-! # Kernel fifos: one reader and one writer

With one of each, `kernel/kfifo.c` asks for no lock. The parts of `kfifo_in`
and `kfifo_out` between two barriers are steps of their own here, and a copy
is made in parts of any length.
-/

open List LTS RingBuffer

namespace Nubernel.Kfifo

structure World (α : Type) where
  fifo : kfifo α
  /-- The bytes to put in, and how many of them have been copied. -/
  writer : Option (List α × Nat)
  /-- How many bytes to take out, and those that have been copied. -/
  reader : Option (Nat × List α)
  /-- The bytes of the calls that have returned. -/
  written : List α
  got : List α

variable {α : Type}

inductive Step (w : World α) : World α → Prop
  | in_begin (data : List α) : w.writer = none → Step w
      { w with writer := some (data.take (min (kfifo_avail w.fifo) data.length), 0) }
  | in_copy {data : List α} {m n : Nat} : w.writer = some (data, m) → n ≤ data.length → Step w
      { w with
        fifo.buffer := __kfifo_in_data w.fifo (data.take n) 0, writer := some (data, n) }
  | in_end {data : List α} : w.writer = some (data, data.length) → Step w
      { w with
        fifo.in_ := add32 w.fifo.in_ data.length, writer := none, written := w.written ++ data }
  | out_begin (len : Nat) : w.reader = none → Step w
      { w with reader := some (min (kfifo_len w.fifo) len, []) }
  | out_copy {len n : Nat} {bytes : List α} :
      w.reader = some (len, bytes) → bytes.length + n ≤ len → Step w
      { w with reader := some (len, bytes ++ __kfifo_out_data w.fifo n bytes.length) }
  | out_end {bytes : List α} : w.reader = some (bytes.length, bytes) → Step w
      { w with
        fifo.out := add32 w.fifo.out bytes.length, reader := none, got := w.got ++ bytes }

/-- The fifo is empty at first, with its offsets anywhere. -/
def fifo_users (α : Type) : System (World α) Unit where
  init := fun w =>
    Rep w.fifo [] w.fifo.out ∧ w.writer = none ∧ w.reader = none ∧ w.written = [] ∧ w.got = []
  step := fun w _ w' => Step w w'

variable {w w' : World α}

/-- The writer has room for its bytes, and the reader has copied the first of the queue. -/
def World.Inv (w : World α) : Prop :=
  ∃ q pos, Rep w.fifo q pos ∧ w.written = w.got ++ q ∧
    (∀ data n, w.writer = some (data, n) → q.length + data.length ≤ w.fifo.size ∧
      Holds w.fifo.size w.fifo.buffer (pos + q.length) (data.take n)) ∧
    ∀ len bytes, w.reader = some (len, bytes) →
      len ≤ q.length ∧ bytes.length ≤ len ∧ bytes = q.take bytes.length

theorem Step.inv (hstep : Step w w') (h : w.Inv) : w'.Inv := by
  obtain ⟨q, pos, hrep, hbytes, hwriter, hreader⟩ := h
  have hfits := hrep.fits
  cases hstep with
  | in_begin data _ =>
    refine ⟨q, pos, hrep, hbytes, ?_, hreader⟩
    rintro _ _ ⟨⟩
    rw [hrep.avail, length_take]
    exact ⟨by dsimp only; omega, Holds.nil _ _ _⟩
  | @in_copy data _ n hw hn =>
    obtain ⟨hroom, _⟩ := hwriter _ _ hw
    have hlen := length_take_of_le hn
    have hput := hrep.in_data (data.take n) 0
    refine ⟨q, pos, ⟨hrep.size, hrep.out, hrep.in_, hfits, ?_⟩, hbytes, ?_, hreader⟩
    · -- The copy stays off the bytes of the queue.
      rw [hput]
      exact hrep.holds.put_frame le_rfl (by omega)
    rintro _ _ ⟨⟩
    rw [hput]
    exact ⟨hroom, Holds.put _ _ (by dsimp only; omega)⟩
  | @in_end data hw =>
    obtain ⟨hroom, hdata⟩ := hwriter _ _ hw
    rw [take_length] at hdata
    have hholds := Holds.append_iff.mpr ⟨hrep.holds, hdata⟩
    refine ⟨q ++ data, pos, hrep.extend hroom hholds, by simp [hbytes], nofun, ?_⟩
    intro len bytes hr
    obtain ⟨hle, hlen, hfirst⟩ := hreader len bytes hr
    rw [length_append, take_append_of_le_length (by omega)]
    exact ⟨by omega, hlen, hfirst⟩
  | out_begin len _ =>
    refine ⟨q, pos, hrep, hbytes, hwriter, ?_⟩
    rintro _ _ ⟨⟩
    rw [hrep.len]
    exact ⟨Nat.min_le_left .., Nat.zero_le _, rfl⟩
  | out_copy hr hn =>
    obtain ⟨hle, _, hfirst⟩ := hreader _ _ hr
    refine ⟨q, pos, hrep, hbytes, hwriter, ?_⟩
    rintro _ _ ⟨⟩
    rw [hrep.read (by omega)]
    grind
  | @out_end bytes hr =>
    obtain ⟨hle, _, hfirst⟩ := hreader _ _ hr
    refine ⟨q.drop bytes.length, pos + bytes.length, hrep.advance hle, ?_, ?_, nofun⟩
    · grind [take_append_drop]
    intro data n hw
    obtain ⟨hroom, hdata⟩ := hwriter data n hw
    rw [length_drop, show pos + bytes.length + (q.length - bytes.length) = pos + q.length by omega]
    exact ⟨by dsimp only; omega, hdata⟩

/-- **No lock is needed.** However the steps of the reader and of the writer alternate, the
bytes taken out followed by those in the fifo are the bytes put in, in their order. -/
theorem fifo_needs_no_lock (h : (fifo_users α).Reachable w) :
    ∃ q, w.written = w.got ++ q ∧ kfifo_len w.fifo = q.length ∧ q.length ≤ w.fifo.size ∧
      __kfifo_out_data w.fifo q.length 0 = q := by
  have hinv : w.Inv := by
    refine System.invariant ?_ (fun _ _ _ h hstep => Step.inv hstep h) h
    rintro w ⟨hrep, hw, hr, hwritten, hgot⟩
    exact ⟨[], _, hrep, by simp [hwritten, hgot], by simp [hw], by simp [hr]⟩
  obtain ⟨q, _, hrep, hbytes, _⟩ := hinv
  refine ⟨q, hbytes, hrep.len, hrep.fits, ?_⟩
  rw [hrep.read (by omega), drop_zero, take_length]

/-- One byte is taken out while another is put in. -/
theorem fifo_needs_no_lock_two : ∃ w : World Nat, (fifo_users Nat).Reachable w ∧
    w.got = [1] ∧ ∃ q, w.written = w.got ++ q := by
  have h : (fifo_users Nat).Reachable ⟨⟨fun _ => 0, 2 ^ 1, 0, 0⟩, none, none, [], []⟩ :=
    .of_init ⟨Rep.empty _ (by decide) (by decide), rfl, rfl, rfl, rfl⟩
  have h := h.step (l := ()) (Step.in_begin [1] rfl)
  have h := h.step (l := ()) (Step.in_copy (n := 1) rfl (by decide))
  have h := h.step (l := ()) (Step.in_end rfl)
  have h := h.step (l := ()) (Step.out_begin 1 rfl)
  have h := h.step (l := ()) (Step.in_begin [2] rfl)
  have h := h.step (l := ()) (Step.out_copy (n := 1) rfl (by decide))
  have h := h.step (l := ()) (@Step.out_end _ _ [1] (by decide))
  obtain ⟨q, hq, _⟩ := fifo_needs_no_lock h
  exact ⟨_, h, by decide, q, hq⟩

end Nubernel.Kfifo
