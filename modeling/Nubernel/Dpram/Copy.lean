import Nubernel.Lib.Halfword

/-! # dpram: copies to and from shared memory

Model of `byte_align`, `_memcpy` and `_memcmp` of
`drivers/onedram/dpram/dpram.c`. Shared memory is accessed by halfwords
only: a byte at an edge of the destination is merged into the halfword
that it is part of, which reads and writes the neighbouring byte, too.

A copy is from one memory to another: one of them is the shared memory,
addressed relative to the page `DPRAM_VBASE`, the other the kernel's own.
-/

open BitVec Function Halfword RingBuffer

namespace Nubernel.Dpram

/-! ## The functions of the source -/

/-- One byte, by halfwords. -/
def byte_align (d : Mem) (dest : Nat) (s : Mem) (src : Nat) : Mem :=
  -- The memory is written by halfwords, so the other byte is written back.
  if dest % 2 = 0 ∧ src % 2 = 0 then
    store16 d dest ((load16 d dest &&& 0xFF00#16) ||| (load16 s src &&& 0x00FF#16))
  else if dest % 2 = 1 ∧ src % 2 = 1 then
    store16 d (dest - 1) ((load16 d (dest - 1) &&& 0x00FF#16) ||| (load16 s (src - 1) &&& 0xFF00#16))
  else if dest % 2 = 0 ∧ src % 2 = 1 then
    store16 d dest ((load16 d dest &&& 0xFF00#16) ||| ((load16 s (src - 1) >>> 8) &&& 0x00FF#16))
  else
    store16 d (dest - 1) ((load16 d (dest - 1) &&& 0x00FF#16) ||| ((load16 s src <<< 8) &&& 0xFF00#16))

/-- The loop for a source at an odd address. -/
def copy_odd : Nat → Mem → Nat → Mem → Nat → Mem
  | 0, d, _, _, _ => d
  | size + 1, d, dest, s, src =>
    copy_odd size
      (store16 d dest ((s src).setWidth 16 ||| ((s (src + 1)).setWidth 16 <<< 8)))
      (dest + 2) s (src + 2)

/-- The loop for a source at an even address. -/
def copy_even : Nat → Mem → Nat → Mem → Nat → Mem
  | 0, d, _, _, _ => d
  | size + 1, d, dest, s, src =>
    copy_even size (store16 d dest (load16 s src)) (dest + 2) s (src + 2)

/-- The halfwords of a copy to an even address. -/
def copy_halfwords (d : Mem) (dest : Nat) (s : Mem) (src size : Nat) : Mem :=
  if src % 2 = 1 then copy_odd (size / 2) d dest s src else copy_even (size / 2) d dest s src

/-- The last byte, if there is one on its own, and the halfwords. -/
def copy_tail (d : Mem) (dest : Nat) (s : Mem) (src size : Nat) : Mem :=
  if size % 2 = 1 then
    copy_halfwords (byte_align d (dest + size - 1) s (src + size - 1)) dest s src (size - 1)
  else
    copy_halfwords d dest s src size

/-- `_memcpy`, while the semaphore is held. -/
def _memcpy (d : Mem) (dest : Nat) (s : Mem) (src size : Nat) : Mem :=
  if size = 0 then
    d
  else if dest % 2 = 1 then
    copy_tail (byte_align d dest s src) (dest + 1) s (src + 1) (size - 1)
  else
    copy_tail d dest s src size

/-- `_memcmp`, while the semaphore is held: whether the bytes differ. -/
def _memcmp (d : Mem) (dest : Nat) (s : Mem) (src size : Nat) : Bool :=
  (List.range size).any fun i => decide (d (dest + i) ≠ s (src + i))

/-- `WRITE_TO_DPRAM_VERIFY` and `READ_FROM_DPRAM_VERIFY`: copy and compare, up
to `cnt` times. -/
def copy_verify (s : Mem) (src dest size : Nat) : Nat → Mem → Mem
  | 0, d => d
  | cnt + 1, d =>
    let d' := _memcpy d dest s src size
    -- The source gives up after three attempts and keeps what it has.
    if _memcmp d' dest s src size then copy_verify s src dest size cnt d' else d'

def WRITE_TO_DPRAM (m : Mem) (dest : Nat) (s : Mem) (src size : Nat) : Mem :=
  _memcpy m dest s src size

/-- `READ_FROM_DPRAM_VERIFY` of an index into a `u16` variable of the caller. -/
def READ_FROM_DPRAM_VERIFY (m : Mem) (src : Nat) : Nat :=
  (load16 (copy_verify m src 0 2 3 fun _ => 0) 0).toNat

/-- `WRITE_TO_DPRAM_VERIFY` of an index in a `u16` variable of the caller. -/
def WRITE_TO_DPRAM_VERIFY (m : Mem) (dest value : Nat) : Mem :=
  copy_verify (store16 (fun _ => 0) 0 (BitVec.ofNat 16 value)) 0 dest 2 3 m

/-- One attempt of `READ_FROM_DPRAM_VERIFY`. -/
def read_word (m : Mem) (src : Nat) : Nat := (load16 (_memcpy (fun _ => 0) 0 m src 2) 0).toNat

/-- One attempt of `WRITE_TO_DPRAM_VERIFY`. -/
def write_word (m : Mem) (dest value : Nat) : Mem :=
  _memcpy m dest (store16 (fun _ => 0) 0 (BitVec.ofNat 16 value)) 0 2

/-! ## What is copied -/

variable {w : BitVec 16}

section
variable (d : Mem) (dest : Nat)
include d dest

theorem update_eq_memcpy (s : Mem) (src : Nat) :
    update d dest (s src) = memcpy d dest (slice s src 1) := by
  funext i
  rw [memcpy_slice_apply]
  by_cases h : i = dest
  · subst h
    rw [update_self, if_pos (by omega), Nat.sub_self, Nat.add_zero]
  rw [update_of_ne h, if_neg (by omega)]

/-- A halfword whose higher byte is written back as it was read. -/
theorem store16_low (hhigh : high w = d (dest + 1)) :
    store16 d dest w = update d dest (low w) := by
  funext i
  rw [store16_apply, update_apply]
  by_cases h : i = dest
  · rw [if_pos h, if_pos h]
  rw [if_neg h, if_neg h]
  split
  · rename_i h'
    rw [hhigh, h']
  rfl

/-- A halfword whose lower byte is written back as it was read. -/
theorem store16_high (hlow : low w = d dest) :
    store16 d dest w = update d (dest + 1) (high w) := by
  funext i
  rw [store16_apply, update_apply]
  by_cases h : i = dest
  · rw [if_pos h, if_neg (by omega), hlow, h]
  · rw [if_neg h]

/-- One byte is copied; its neighbour is written back. -/
theorem byte_align_eq (s : Mem) (src : Nat) :
    byte_align d dest s src = memcpy d dest (slice s src 1) := by
  rw [← update_eq_memcpy]
  unfold byte_align
  split
  · rw [store16_low d dest (by rw [high_merge_low, high_load16]), low_merge_low, low_load16]
  split
  · obtain ⟨dest', rfl⟩ : ∃ dest', dest = dest' + 1 := ⟨dest - 1, by omega⟩
    obtain ⟨src', rfl⟩ : ∃ src', src = src' + 1 := ⟨src - 1, by omega⟩
    rw [Nat.add_sub_cancel, Nat.add_sub_cancel,
      store16_high d dest' (by rw [low_merge_high, low_load16]), high_merge_high, high_load16]
  split
  · obtain ⟨src', rfl⟩ : ∃ src', src = src' + 1 := ⟨src - 1, by omega⟩
    rw [Nat.add_sub_cancel, store16_low d dest (by rw [high_merge_low, high_load16]),
      low_merge_low, low_shiftRight, high_load16]
  obtain ⟨dest', rfl⟩ : ∃ dest', dest = dest' + 1 := ⟨dest - 1, by omega⟩
  rw [Nat.add_sub_cancel, store16_high d dest' (by rw [low_merge_high, low_load16]),
    high_merge_high, high_shiftLeft, low_load16]

theorem store16_copy (s : Mem) (src : Nat) (hlow : low w = s src) (hhigh : high w = s (src + 1)) :
    store16 d dest w = memcpy d dest (slice s src 2) := by
  funext i
  rw [store16_apply, memcpy_slice_apply, hlow, hhigh]
  by_cases h : i = dest
  · rw [if_pos h, if_pos (by omega), h, Nat.sub_self, Nat.add_zero]
  rw [if_neg h]
  by_cases h' : i = dest + 1
  · rw [if_pos h', if_pos (by omega), h', Nat.add_sub_cancel_left]
  · rw [if_neg h', if_neg (by omega)]

theorem memcpy_memcpy (s : Mem) (src n k : Nat) :
    memcpy (memcpy d dest (slice s src n)) (dest + n) (slice s (src + n) k) =
      memcpy d dest (slice s src (n + k)) := by
  funext i
  simp only [memcpy_slice_apply]
  by_cases h : dest + n ≤ i ∧ i < dest + n + k
  · rw [if_pos h, if_pos (by omega)]
    congr 1
    omega
  rw [if_neg h]
  by_cases h' : dest ≤ i ∧ i < dest + n
  · rw [if_pos h', if_pos (by omega)]
  · rw [if_neg h', if_neg (by omega)]

omit d dest in
/-- Copies that do not overlap can be made in any order. -/
theorem memcpy_comm (d : Mem) {dest dest' : Nat} (s : Mem) (src src' : Nat) {n k : Nat}
    (h : dest + n ≤ dest') :
    memcpy (memcpy d dest' (slice s src' k)) dest (slice s src n) =
      memcpy (memcpy d dest (slice s src n)) dest' (slice s src' k) := by
  funext i
  simp only [memcpy_slice_apply]
  by_cases h1 : dest ≤ i ∧ i < dest + n
  · rw [if_pos h1, if_neg (by omega), if_pos h1]
  rw [if_neg h1]
  by_cases h2 : dest' ≤ i ∧ i < dest' + k
  · rw [if_pos h2, if_pos h2]
  · rw [if_neg h2, if_neg h2, if_neg h1]

omit d dest in
theorem copy_odd_eq (n : Nat) (d : Mem) (dest : Nat) (s : Mem) (src : Nat) :
    copy_odd n d dest s src = memcpy d dest (slice s src (2 * n)) := by
  induction n generalizing d dest src with
  | zero => simp [copy_odd, slice]
  | succ n ih => ?_
  unfold copy_odd
  have hword : store16 d dest (join (s src) (s (src + 1))) = memcpy d dest (slice s src 2) :=
    store16_copy d dest s src (low_join _ _) (high_join _ _)
  unfold join at hword
  rw [hword, ih, memcpy_memcpy]
  congr 2
  omega

omit d dest in
theorem copy_even_eq (n : Nat) (d : Mem) (dest : Nat) (s : Mem) (src : Nat) :
    copy_even n d dest s src = memcpy d dest (slice s src (2 * n)) := by
  induction n generalizing d dest src with
  | zero => simp [copy_even, slice]
  | succ n ih => ?_
  unfold copy_even
  rw [store16_copy d dest s src (low_load16 _ _) (high_load16 _ _), ih, memcpy_memcpy]
  congr 2
  omega

theorem copy_halfwords_eq (s : Mem) (src : Nat) {size : Nat} (heven : size % 2 = 0) :
    copy_halfwords d dest s src size = memcpy d dest (slice s src size) := by
  have hsize : 2 * (size / 2) = size := by omega
  unfold copy_halfwords
  split
  · rw [copy_odd_eq, hsize]
  · rw [copy_even_eq, hsize]

theorem copy_tail_eq (s : Mem) (src size : Nat) :
    copy_tail d dest s src size = memcpy d dest (slice s src size) := by
  unfold copy_tail
  split
  · rename_i hodd
    obtain ⟨n, rfl⟩ : ∃ n, size = n + 1 := ⟨size - 1, by omega⟩
    rw [copy_halfwords_eq _ _ _ _ (by omega), byte_align_eq, Nat.add_sub_cancel,
      ← Nat.add_assoc dest, ← Nat.add_assoc src, Nat.add_sub_cancel, Nat.add_sub_cancel,
      -- The last byte was copied first.
      memcpy_comm d s src (src + n) (Nat.le_refl _), memcpy_memcpy]
  exact copy_halfwords_eq _ _ _ _ (by omega)

/-- **The copy.** The bytes of the destination become those of the source,
and no other byte changes. -/
theorem memcpy_eq (s : Mem) (src size : Nat) :
    _memcpy d dest s src size = memcpy d dest (slice s src size) := by
  unfold _memcpy
  split
  · rename_i hzero
    subst hzero
    simp [slice]
  split
  · obtain ⟨n, rfl⟩ : ∃ n, size = 1 + n := ⟨size - 1, by omega⟩
    rw [copy_tail_eq, byte_align_eq, Nat.add_sub_cancel_left, memcpy_memcpy]
  exact copy_tail_eq _ _ _ _ _

theorem memcmp_memcpy (s : Mem) (src size : Nat) :
    _memcmp (_memcpy d dest s src size) dest s src size = false := by
  unfold _memcmp
  rw [memcpy_eq, List.any_eq_false]
  intro i hi
  rw [List.mem_range] at hi
  rw [memcpy_slice_apply, if_pos (by omega), Nat.add_sub_cancel_left]
  simp

end

/-- A copy is verified at the first attempt. -/
theorem copy_verify_eq (s : Mem) (src dest size cnt : Nat) (d : Mem) :
    copy_verify s src dest size (cnt + 1) d = memcpy d dest (slice s src size) := by
  unfold copy_verify
  simp only [memcmp_memcpy, Bool.false_eq_true, if_false]
  exact memcpy_eq d dest s src size

/-! ## Indices -/

theorem read_verify_eq (m : Mem) (src : Nat) :
    READ_FROM_DPRAM_VERIFY m src = (load16 m src).toNat := by
  have hword : load16 (memcpy (fun _ => 0) 0 (slice m src 2)) 0 = load16 m src := rfl
  unfold READ_FROM_DPRAM_VERIFY
  rw [copy_verify_eq, hword]

theorem write_verify_eq (m : Mem) (dest value : Nat) :
    WRITE_TO_DPRAM_VERIFY m dest value = store16 m dest (BitVec.ofNat 16 value) := by
  unfold WRITE_TO_DPRAM_VERIFY
  rw [copy_verify_eq]
  symm
  apply store16_copy
  · rw [store16_apply, if_pos rfl]
  · rw [store16_apply, if_neg (by decide), if_pos rfl]

/-- Without interference one attempt is enough. -/
theorem read_word_eq (m : Mem) (src : Nat) : read_word m src = READ_FROM_DPRAM_VERIFY m src := by
  unfold read_word READ_FROM_DPRAM_VERIFY
  rw [copy_verify_eq, memcpy_eq]

theorem write_word_eq (m : Mem) (dest value : Nat) :
    write_word m dest value = WRITE_TO_DPRAM_VERIFY m dest value := by
  unfold write_word WRITE_TO_DPRAM_VERIFY
  rw [copy_verify_eq, memcpy_eq]

/-- An index that was written is read back. -/
theorem read_write_verify (m : Mem) (addr : Nat) {value : Nat} (hvalue : value < 65536) :
    READ_FROM_DPRAM_VERIFY (WRITE_TO_DPRAM_VERIFY m addr value) addr = value := by
  rw [read_verify_eq, write_verify_eq, load16_store16, toNat_ofNat, Nat.mod_eq_of_lt hvalue]

/-- Reading an index depends on its two bytes only. -/
theorem read_verify_congr {m m' : Mem} {addr : Nat}
    (h : ∀ a, addr ≤ a → a < addr + 2 → m' a = m a) :
    READ_FROM_DPRAM_VERIFY m' addr = READ_FROM_DPRAM_VERIFY m addr := by
  rw [read_verify_eq, read_verify_eq,
    load16_congr (h addr (by omega) (by omega)) (h (addr + 1) (by omega) (by omega))]

/-- Writing an index changes its two bytes only. -/
theorem write_verify_of_outside {m : Mem} {addr a : Nat} (value : Nat)
    (h : a < addr ∨ addr + 2 ≤ a) : WRITE_TO_DPRAM_VERIFY m addr value a = m a := by
  rw [write_verify_eq, store16_of_ne _ (by omega) (by omega)]

end Nubernel.Dpram
