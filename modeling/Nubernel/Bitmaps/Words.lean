import Nubernel.Genalloc.Search

/-! # Bitmaps as arrays of words (lib/bitmap.c)

`bitmap_set` and `bitmap_clear` go over the words of a range of bits; the first and
the last word are masked. `bit` is the view of the words as bits, on which
`bitmap_find_next_zero_area` works. The shifts go over the words in the order in which
none is read after it was written.
-/

namespace Nubernel.Bitmaps

open Bitmap Function Genalloc Nat
open BitVec hiding fill or_comm
open List

/-! ## Model -/

abbrev Words := Nat → BitVec 32

/-- `test_bit`. -/
def bit (map : Words) (i : Nat) : Bool := (map (i / 32)).getLsbD (i % 32)

def BITMAP_FIRST_WORD_MASK (start : Nat) : BitVec 32 := allOnes 32 <<< (start % 32)

def BITMAP_LAST_WORD_MASK (nbits : Nat) : BitVec 32 :=
  if nbits % 32 ≠ 0 then BitVec.ofNat 32 (1 <<< (nbits % 32) - 1) else BitVec.allOnes 32

/-- The loop of `bitmap_set` and of `bitmap_clear`, which differ in what they do to a word.
`bits` and `mask` are the variables `bits_to_set` and `mask_to_set`. -/
def word_loop (op : BitVec 32 → BitVec 32 → BitVec 32) (size : Nat) :
    Nat → Words → Nat → Nat → Nat → BitVec 32 → Option Words
  | 0, _, _, _, _, _ => none
  | fuel + 1, map, p, nr, bits, mask =>
    if nr ≥ bits then
      word_loop op size fuel (update map p (op (map p) mask)) (p + 1) (nr - bits) 32
        (allOnes 32)
    else if nr ≠ 0 then
      some (update map p (op (map p) (mask &&& BITMAP_LAST_WORD_MASK size)))
    else some map

def bitmap_set (map : Words) (start nr : Nat) : Option Words :=
  word_loop (fun w mask => w ||| mask) (start + nr) (nr + 1) map (start / 32) nr
    (32 - start % 32) (BITMAP_FIRST_WORD_MASK start)

def bitmap_clear (map : Words) (start nr : Nat) : Option Words :=
  word_loop (fun w mask => w &&& ~~~mask) (start + nr) (nr + 1) map (start / 32) nr
    (32 - start % 32) (BITMAP_FIRST_WORD_MASK start)

/-! ## Ranges of bits -/

section range
variable {op : BitVec 32 → BitVec 32 → BitVec 32} {v : Bool} {start nr fuel : Nat} {map : Words}

theorem first_mask_bit {i : Nat} (hi : i < 32) :
    (BITMAP_FIRST_WORD_MASK start).getLsbD i = decide (start % 32 ≤ i) := by
  unfold BITMAP_FIRST_WORD_MASK
  rw [getLsbD_shiftLeft, getLsbD_allOnes]
  grind

theorem last_mask_bit {n i : Nat} (hi : i < 32) :
    (BITMAP_LAST_WORD_MASK n).getLsbD i = (decide (i < n % 32) || decide (n % 32 = 0)) := by
  unfold BITMAP_LAST_WORD_MASK
  by_cases hn : n % 32 = 0
  · rw [if_neg (by omega), getLsbD_allOnes]
    simp [hn, hi]
  rw [if_pos hn, getLsbD_ofNat, one_shiftLeft, testBit_two_pow_sub_one]
  simp [hn, hi]

/-- The masked bits of a word get the value. -/
def Writes (op : BitVec 32 → BitVec 32 → BitVec 32) (v : Bool) : Prop :=
  ∀ w mask i, i < 32 → (op w mask).getLsbD i = if mask.getLsbD i then v else w.getLsbD i

theorem Writes.bit_update (hop : Writes op v) (map : Words) (p : Nat) (mask : BitVec 32) (i : Nat) :
    bit (update map p (op (map p) mask)) i =
      if i / 32 = p ∧ mask.getLsbD (i % 32) then v else bit map i := by
  unfold bit
  by_cases hp : i / 32 = p
  · rw [hp, update_self, hop _ _ _ (mod_lt i (by decide))]
    simp
  rw [update_of_ne hp, if_neg (fun h => hp h.1)]

/-- The words from the one with bit `start` on. -/
theorem Writes.word_loop (hop : Writes op v) (hfuel : nr < fuel) :
    ∃ map', Bitmaps.word_loop op (start + nr) fuel map (start / 32) nr (32 - start % 32)
      (BITMAP_FIRST_WORD_MASK start) = some map' ∧ bit map' = fill (bit map) start nr v := by
  induction fuel generalizing start nr map with
  | zero => omega
  | succ fuel ih => ?_
  rw [Bitmaps.word_loop]
  by_cases hge : nr ≥ 32 - start % 32
  · rw [if_pos hge]
    obtain ⟨map', heq, hbit⟩ := @ih (start + (32 - start % 32)) (nr - (32 - start % 32))
      (update map (start / 32) (op (map (start / 32)) (BITMAP_FIRST_WORD_MASK start))) (by omega)
    have hmask : BITMAP_FIRST_WORD_MASK (start + (32 - start % 32)) = allOnes 32 := by
      simp [BITMAP_FIRST_WORD_MASK, show (start + (32 - start % 32)) % 32 = 0 by omega]
    rw [hmask, show start + (32 - start % 32) + (nr - (32 - start % 32)) = start + nr by omega,
      show (start + (32 - start % 32)) / 32 = start / 32 + 1 by omega,
      show 32 - (start + (32 - start % 32)) % 32 = 32 by omega] at heq
    refine ⟨map', heq, ?_⟩
    funext i
    rw [hbit]
    unfold fill
    rw [hop.bit_update, first_mask_bit (mod_lt i (by decide))]
    grind
  rw [if_neg hge]
  by_cases hnr : nr ≠ 0
  · rw [if_pos hnr]
    refine ⟨_, rfl, ?_⟩
    funext i
    rw [hop.bit_update, getLsbD_and, first_mask_bit (mod_lt i (by decide)),
      last_mask_bit (mod_lt i (by decide))]
    unfold fill
    grind
  rw [if_neg hnr]
  refine ⟨map, rfl, ?_⟩
  funext i
  unfold fill
  rw [if_neg (by omega)]

theorem writes_set : Writes (fun w mask => w ||| mask) true := by
  intro w mask i _
  rw [getLsbD_or]
  cases mask.getLsbD i <;> simp

theorem writes_clear : Writes (fun w mask => w &&& ~~~mask) false := by
  intro w mask i hi
  rw [getLsbD_and, getLsbD_not]
  cases mask.getLsbD i <;> simp [hi]

end range

def BITS_TO_LONGS (nr : Nat) : Nat := (nr + 31) / 32

/-- `w &= mask`, in the last word of a bitmap if this is not full. -/
def mask_last (bits k : Nat) (w : BitVec 32) : BitVec 32 :=
  if bits % 32 ≠ 0 ∧ k = BITS_TO_LONGS bits - 1 then w &&& BITMAP_LAST_WORD_MASK bits else w

def right_word (src bits off rem : Nat) (mem : Words) (k : Nat) : BitVec 32 :=
  let upper := if rem = 0 ∨ off + k + 1 ≥ BITS_TO_LONGS bits then 0
    else mask_last bits (off + k + 1) (mem (src + (off + k + 1)))
  let lower := mask_last bits (off + k) (mem (src + (off + k)))
  mask_last bits k (upper <<< (32 - rem) ||| lower >>> rem)

def left_word (src bits off rem : Nat) (mem : Words) (k : Nat) : BitVec 32 :=
  let lower := if rem ≠ 0 ∧ k > 0 then mem (src + (k - 1)) else 0
  let upper := mask_last bits k (mem (src + k))
  mask_last bits (k + off) (lower >>> (32 - rem) ||| upper <<< rem)

/-- The words are written to `addr k`, one after the other. -/
def write_words (word : Words → Nat → BitVec 32) (addr : Nat → Nat) (ks : List Nat) (mem : Words) :
    Words :=
  ks.foldl (fun mem k => update mem (addr k) (word mem k)) mem

def memset (mem : Words) (start n : Nat) : Words :=
  fun a => if start ≤ a ∧ a < start + n then 0 else mem a

/-- The bitmaps are at `dst` and at `src` in one memory. -/
def __bitmap_shift_right (mem : Words) (dst src shift bits : Nat) : Words :=
  let lim := BITS_TO_LONGS bits
  let off := shift / 32
  let mem := write_words (right_word src bits off (shift % 32)) (dst + ·) (range (lim - off)) mem
  if off ≠ 0 then memset mem (dst + (lim - off)) off else mem

def __bitmap_shift_left (mem : Words) (dst src shift bits : Nat) : Words :=
  let lim := BITS_TO_LONGS bits
  let off := shift / 32
  let mem := write_words (left_word src bits off (shift % 32)) (fun k => dst + (k + off))
    (range (lim - off)).reverse mem
  if off ≠ 0 then memset mem dst off else mem

section shifts
variable {mem mem' : Words} {dst src shift bits off rem k i : Nat}

/-- Each word is that of the first memory, if none reads what was written before it. -/
theorem write_words_spec {word : Words → Nat → BitVec 32} {addr : Nat → Nat} {ks : List Nat}
    (hks : ks.Pairwise fun k k' =>
      addr k ≠ addr k' ∧ ∀ mem v, word (update mem (addr k) v) k' = word mem k') :
    (∀ k ∈ ks, write_words word addr ks mem (addr k) = word mem k) ∧
      ∀ a, (∀ k ∈ ks, a ≠ addr k) → write_words word addr ks mem a = mem a := by
  induction ks generalizing mem with
  | nil => exact ⟨nofun, fun _ _ => rfl⟩
  | cons k ks ih => ?_
  obtain ⟨hhead, htail⟩ := pairwise_cons.mp hks
  obtain ⟨hwritten, hkept⟩ := @ih (update mem (addr k) (word mem k)) htail
  constructor
  · intro k' hk'
    rcases mem_cons.mp hk' with rfl | hk'
    · exact (hkept _ fun k hk => (hhead k hk).1).trans (update_self ..)
    · exact (hwritten k' hk').trans ((hhead k' hk').2 mem _)
  intro a ha
  exact (hkept a fun k hk => ha k (by simp [hk])).trans (update_of_ne (ha k (by simp)) ..)

theorem mask_last_bit (hk : k < BITS_TO_LONGS bits) (hi : i < 32) (w : BitVec 32) :
    (mask_last bits k w).getLsbD i = (w.getLsbD i && decide (32 * k + i < bits)) := by
  unfold BITS_TO_LONGS at hk
  unfold mask_last BITS_TO_LONGS
  split
  · rw [getLsbD_and, last_mask_bit hi]
    grind
  rw [decide_eq_true (by omega), Bool.and_true]

/-- Two neighbouring words, from bit `s` of the lower one on. -/
theorem join_bit {s : Nat} (u l : BitVec 32) (hs : s ≤ 32) (hi : i < 32) :
    (u <<< (32 - s) ||| l >>> s).getLsbD i =
      if s + i < 32 then l.getLsbD (s + i) else u.getLsbD (s + i - 32) := by
  rw [getLsbD_or, getLsbD_shiftLeft, getLsbD_ushiftRight]
  split
  · simp [show i < 32 - s by omega]
  rw [getLsbD_of_ge l _ (by omega), show i - (32 - s) = s + i - 32 by omega]
  simp [hi, show ¬i < 32 - s by omega]

theorem bit_at {a j : Nat} (hj : j = 32 * k + i) (hi : i < 32) :
    bit mem (32 * a + j) = (mem (a + k)).getLsbD i := by
  unfold bit
  rw [show (32 * a + j) / 32 = a + k by omega, show (32 * a + j) % 32 = i by omega]

theorem right_word_bit (hk : off + k < BITS_TO_LONGS bits) (hi : i < 32) (hrem : rem < 32) :
    (right_word src bits off rem mem k).getLsbD i = if 32 * (off + k) + (rem + i) < bits
      then bit mem (32 * src + (32 * (off + k) + (rem + i))) else false := by
  unfold right_word
  rw [mask_last_bit (by omega) hi, join_bit _ _ (by omega) hi]
  split
  · rw [mask_last_bit hk (by omega), bit_at rfl (by omega)]
    grind
  by_cases hend : off + k + 1 ≥ BITS_TO_LONGS bits
  · rw [if_pos (.inr hend)]
    unfold BITS_TO_LONGS at hend
    rw [if_neg (by omega)]
    simp
  have hbit : bit mem (32 * src + (32 * (off + k) + (rem + i))) = _ :=
    bit_at (k := off + k + 1) (i := rem + i - 32) (by omega) (by omega)
  rw [if_neg (by omega), mask_last_bit (by omega) (by omega), hbit]
  grind

theorem left_word_bit (hk : k + off < BITS_TO_LONGS bits) (hi : i < 32) (hrem : rem < 32)
    (hbits : 32 * (k + off) + i < bits) :
    (left_word src bits off rem mem k).getLsbD i = if rem ≤ 32 * k + i
      then bit mem (32 * src + (32 * k + i - rem)) else false := by
  have hjoin := fun u l => @join_bit i (32 - rem) u l (by omega) hi
  rw [show 32 - (32 - rem) = rem by omega] at hjoin
  unfold left_word
  rw [mask_last_bit hk hi, decide_eq_true hbits, Bool.and_true, BitVec.or_comm, hjoin]
  split
  · by_cases hk0 : k = 0
    · simp [hk0, show i < rem by omega]
    rw [if_pos (by omega), if_pos (by omega), bit_at (k := k - 1) (i := 32 - rem + i) (by omega)
      (by omega)]
  rw [mask_last_bit (by omega) (by omega), if_pos (by omega),
    bit_at (k := k) (i := 32 - rem + i - 32) (by omega) (by omega)]
  grind

theorem right_word_congr (hk : off + k < BITS_TO_LONGS bits)
    (h : ∀ j, off + k ≤ j → j < BITS_TO_LONGS bits → mem' (src + j) = mem (src + j)) :
    right_word src bits off rem mem' k = right_word src bits off rem mem k := by
  unfold right_word
  rw [h (off + k) (le_refl _) hk]
  by_cases hend : off + k + 1 ≥ BITS_TO_LONGS bits
  · simp [hend]
  · rw [h (off + k + 1) (by omega) (by omega)]

theorem left_word_congr (h : ∀ j ≤ k, mem' (src + j) = mem (src + j)) :
    left_word src bits off rem mem' k = left_word src bits off rem mem k := by
  unfold left_word
  rw [h k (le_refl k), h (k - 1) (by omega)]

/-- With `off` equal to zero there is nothing to clear. -/
theorem memset_off (mem : Words) (a off : Nat) :
    (if off ≠ 0 then memset mem a off else mem) = memset mem a off := by
  split
  · rfl
  funext b
  unfold memset
  rw [if_neg (by omega)]

/-- The bits of a bitmap move down or up by `shift` places, also within one array, and what
is behind the last bit of the source does not matter. -/
theorem bitmap_shifts (mem : Words) {dst src shift bits : Nat} (hshift : shift ≤ bits)
    (hapart : dst = src ∨ dst + BITS_TO_LONGS bits ≤ src ∨ src + BITS_TO_LONGS bits ≤ dst) :
    (∀ i < 32 * BITS_TO_LONGS bits, bit (__bitmap_shift_right mem dst src shift bits) (32 * dst + i) =
      if i + shift < bits then bit mem (32 * src + (i + shift)) else false) ∧
    ∀ i < bits, bit (__bitmap_shift_left mem dst src shift bits) (32 * dst + i) =
      if shift ≤ i then bit mem (32 * src + (i - shift)) else false := by
  have hlim : bits ≤ 32 * BITS_TO_LONGS bits := by
    unfold BITS_TO_LONGS
    omega
  constructor
  · intro i hi
    -- A word is read at its own place or behind it, before it is written.
    obtain ⟨hwritten, -⟩ := @write_words_spec mem (right_word src bits (shift / 32) (shift % 32))
      (dst + ·) (range (BITS_TO_LONGS bits - shift / 32)) (by
        refine pairwise_lt_range.imp_of_mem fun {k k'} _ hk' hlt => ⟨by omega, fun mem v => ?_⟩
        rw [mem_range] at hk'
        exact right_word_congr (by omega) fun j hj hlt => update_of_ne (by omega) ..)
    unfold __bitmap_shift_right
    rw [memset_off, bit_at (div_add_mod i 32).symm (mod_lt i (by decide))]
    unfold memset
    by_cases hj : i / 32 < BITS_TO_LONGS bits - shift / 32
    · rw [if_neg (by omega), hwritten _ (mem_range.mpr hj),
        right_word_bit (by omega) (by omega) (by omega),
        show 32 * (shift / 32 + i / 32) + (shift % 32 + i % 32) = i + shift by omega]
    rw [if_pos (by omega), if_neg (by omega : ¬i + shift < bits)]
    exact getLsbD_zero
  intro i hi
  obtain ⟨hwritten, -⟩ := @write_words_spec mem (left_word src bits (shift / 32) (shift % 32))
    (fun k => dst + (k + shift / 32)) (range (BITS_TO_LONGS bits - shift / 32)).reverse (by
      refine pairwise_reverse.mpr (pairwise_lt_range.imp_of_mem
        fun {k k'} _ hk' hlt => ⟨by omega, fun mem v => ?_⟩)
      rw [mem_range] at hk'
      exact left_word_congr fun j hj => update_of_ne (by omega) ..)
  unfold __bitmap_shift_left
  rw [memset_off, bit_at (div_add_mod i 32).symm (mod_lt i (by decide))]
  unfold memset
  by_cases hj : shift / 32 ≤ i / 32
  · have hword := hwritten (i / 32 - shift / 32) (by
      rw [mem_reverse, mem_range]
      omega)
    rw [Nat.sub_add_cancel hj] at hword
    rw [if_neg (by omega), hword, left_word_bit (by omega) (by omega) (by omega) (by omega),
      show 32 * (i / 32 - shift / 32) + i % 32 - shift % 32 = i - shift by omega]
    exact if_congr (by omega) rfl rfl
  rw [if_pos (by omega), if_neg (by omega)]
  exact getLsbD_zero

/-- Seven bits move by two within a word, which has more bits behind them. -/
theorem bitmap_shifts_seven :
    (∀ i < 32, bit (__bitmap_shift_right (fun _ => 0xff5#32) 0 0 2 7) (32 * 0 + i) =
      if i + 2 < 7 then bit (fun _ => 0xff5#32) (32 * 0 + (i + 2)) else false) ∧
    ∀ i < 7, bit (__bitmap_shift_left (fun _ => 0xff5#32) 0 0 2 7) (32 * 0 + i) =
      if 2 ≤ i then bit (fun _ => 0xff5#32) (32 * 0 + (i - 2)) else false :=
  bitmap_shifts (fun _ => 0xff5#32) (show 2 ≤ 7 by decide) (.inl (Eq.refl 0))

end shifts

end Nubernel.Bitmaps
