import Nubernel.Lib.Dlist
import Nubernel.Xvmalloc.Model

/-! # xvmalloc: headers, links and free lists

What the words of a block header mean (`hdr`, `nextOf`, `prevOf`), which words
the setters write, and from this what `insert_block`, `remove_block_head`,
`remove_block` and `find_block` do to the free lists.
-/

open Bool Function List Option
open BitVec hiding cons_append

namespace Nubernel.Xvmalloc

/-! ## Words -/

theorem low_withLow (w v : Nat) : low (withLow w v) = v % 2 ^ 16 := by
  unfold low withLow
  omega

theorem high_withLow (w v : Nat) : high (withLow w v) = high w := by
  unfold high withLow high
  omega

theorem low_withHigh (w v : Nat) : low (withHigh w v) = low w := by
  unfold low withHigh low
  omega

theorem high_withHigh (w v : Nat) : high (withHigh w v) = v % 2 ^ 16 := by
  unfold high withHigh low
  omega

theorem high_lt (w : Nat) : high w < 2 ^ 16 := Nat.mod_lt _ (by decide)

section setWord
variable {mem : Mem} {b c : Addr} {k j v : Nat}

theorem setWord_apply (page w : Nat) :
    mem.setWord b k v page w = if page = b.1 ∧ w = b.2 / 4 + k then v else mem page w := by
  unfold Mem.setWord
  by_cases hpage : page = b.1
  · subst hpage
    rw [update_self, update_apply]
    simp
  rw [update_of_ne hpage, if_neg (fun hboth => hpage hboth.1)]

@[simp] theorem word_setWord_self : (mem.setWord b k v).word b k = v := by
  unfold Mem.word
  rw [setWord_apply, if_pos ⟨rfl, rfl⟩]

theorem word_setWord_ne (hne : c.1 = b.1 → c.2 / 4 + j ≠ b.2 / 4 + k) :
    (mem.setWord b k v).word c j = mem.word c j := by
  unfold Mem.word
  rw [setWord_apply, if_neg (fun hboth => hne hboth.1 hboth.2)]

@[simp] theorem word_setWord_other (hne : j ≠ k) : (mem.setWord b k v).word b j = mem.word b j :=
  word_setWord_ne fun _ => by omega

end setWord

/-! ### Headers -/

/-- A header: the size, whether the block is free, whether the one before it is,
and where that one starts. -/
structure Hdr where
  size : Nat
  free : Bool
  prevFree : Bool
  prev : Nat
deriving DecidableEq

/-- The header in a word. -/
def decode (w : Nat) : Hdr :=
  ⟨low w, (high w).testBit 0, (high w).testBit 1, high w &&& PREV_MASK⟩

def hdr (mem : Mem) (b : Addr) : Hdr := decode (mem.word b 0)

theorem size_eq (mem : Mem) (b : Addr) : size mem b = (hdr mem b).size := rfl

theorem test_flag_free (mem : Mem) (b : Addr) :
    test_flag mem b .BLOCK_FREE = (hdr mem b).free := rfl

theorem test_flag_prev (mem : Mem) (b : Addr) :
    test_flag mem b .PREV_FREE = (hdr mem b).prevFree := rfl

theorem get_blockprev_eq (mem : Mem) (b : Addr) : get_blockprev mem b = (hdr mem b).prev := rfl

variable {v off x b : Nat}

theorem decode_withLow (w : Nat) (hv : v < 2 ^ 16) :
    decode (withLow w v) = { decode w with size := v } := by
  unfold decode
  rw [low_withLow, high_withLow, Nat.mod_eq_of_lt hv]

/-- What a new value of `prev` means. -/
theorem decode_withHigh (w : Nat) (hv : v < 2 ^ 16) :
    decode (withHigh w v) = ⟨low w, v.testBit 0, v.testBit 1, v &&& PREV_MASK⟩ := by
  unfold decode
  rw [low_withHigh, high_withHigh, Nat.mod_eq_of_lt hv]

theorem prev_mask_of_aligned (h : off % 4 = 0) (hlt : off < 2 ^ 16) :
    off &&& PREV_MASK = off := by
  obtain ⟨k, rfl⟩ : ∃ k, off = 4 * k := ⟨off / 4, by omega⟩
  have hk : k < 2 ^ 14 := by omega
  rw [show 4 * k = k <<< 2 by rw [Nat.shiftLeft_eq]; omega,
    show PREV_MASK = (2 ^ 14 - 1) <<< 2 by decide, ← Nat.shiftLeft_and_distrib,
    Nat.and_two_pow_sub_one_eq_mod, Nat.mod_eq_of_lt hk]

/-- Setting a flag leaves the rest of the header. -/
theorem decode_or_flag (w : Nat) (hb : b < 2) :
    decode (withHigh w (high w ||| 2 ^ b)) = ⟨low w, (decode w).free || decide (b = 0),
      (decode w).prevFree || decide (b = 1), (decode w).prev⟩ := by
  have hmask : 2 ^ b &&& PREV_MASK = 0 := by
    rcases (show b = 0 ∨ b = 1 by omega) with rfl | rfl <;> decide
  rw [decode_withHigh w (Nat.or_lt_two_pow (high_lt w)
    (Nat.pow_lt_pow_right (by decide) (by omega))), Nat.and_or_distrib_right, hmask, Nat.or_zero,
    Nat.testBit_or, Nat.testBit_or, Nat.testBit_two_pow, Nat.testBit_two_pow]
  rfl

theorem decode_and_flag (w : Nat) (hb : b < 2) :
    decode (withHigh w (high w &&& (2 ^ 16 - 1 - 2 ^ b))) = ⟨low w,
      (decode w).free && !decide (b = 0), (decode w).prevFree && !decide (b = 1),
      (decode w).prev⟩ := by
  have hmask : (2 ^ 16 - 1 - 2 ^ b) &&& PREV_MASK = PREV_MASK ∧
      (2 ^ 16 - 1 - 2 ^ b).testBit 0 = !decide (b = 0) ∧
      (2 ^ 16 - 1 - 2 ^ b).testBit 1 = !decide (b = 1) := by
    rcases (show b = 0 ∨ b = 1 by omega) with rfl | rfl <;> decide
  rw [decode_withHigh w (Nat.lt_of_le_of_lt Nat.and_le_left (high_lt w)), Nat.and_assoc, hmask.1,
    Nat.testBit_and, Nat.testBit_and, hmask.2.1, hmask.2.2]
  rfl

theorem or_flags (hoff : off % 4 = 0) (hlt : off < 2 ^ 16) :
    off ||| (x &&& FLAGS_MASK) < 2 ^ 16 ∧ (off ||| (x &&& FLAGS_MASK)) &&& PREV_MASK = off ∧
      ∀ i, i < 2 → (off ||| (x &&& FLAGS_MASK)).testBit i = x.testBit i := by
  refine ⟨Nat.or_lt_two_pow hlt (Nat.lt_of_le_of_lt Nat.and_le_right (by decide)), ?_, ?_⟩
  · rw [Nat.and_or_distrib_right, Nat.and_assoc, show FLAGS_MASK &&& PREV_MASK = 0 by decide,
      Nat.and_zero, Nat.or_zero, prev_mask_of_aligned hoff hlt]
  intro i hi
  obtain ⟨k, rfl⟩ : ∃ k, off = k <<< 2 := ⟨off / 4, by rw [Nat.shiftLeft_eq]; omega⟩
  rw [Nat.testBit_or, Nat.testBit_and, Nat.testBit_shiftLeft]
  have hbit : FLAGS_MASK.testBit i = true := by
    rcases (show i = 0 ∨ i = 1 by omega) with rfl | rfl <;> decide
  have hlow : decide (i ≥ 2) = false := decide_eq_false (by omega)
  rw [hbit, hlow, Bool.false_and, Bool.false_or, Bool.and_true]

/-- A write to the header at `b`: only this word changes. -/
structure Writes (mem mem' : Mem) (b : Addr) (h : Hdr) : Prop where
  hdr : hdr mem' b = h
  frame : ∀ page w, ¬(page = b.1 ∧ w = b.2 / 4) → mem' page w = mem page w

section header
variable {mem : Mem} {b : Addr}

theorem Writes.of_setWord {h : Hdr} (hv : decode v = h) :
    Writes mem (mem.setWord b 0 v) b h := by
  refine ⟨?_, ?_⟩
  · unfold Xvmalloc.hdr
    rw [word_setWord_self, hv]
  intro page w hne
  rw [setWord_apply, Nat.add_zero, if_neg hne]

theorem Writes.trans {mem₁ mem₂ : Mem} {h₁ h₂ : Hdr} (hw₁ : Writes mem mem₁ b h₁)
    (hw₂ : Writes mem₁ mem₂ b h₂) : Writes mem mem₂ b h₂ :=
  ⟨hw₂.hdr, fun page w hne => (hw₂.frame page w hne).trans (hw₁.frame page w hne)⟩

/-- Other headers stay. -/
theorem Writes.other {mem' : Mem} {h : Hdr} (hw : Writes mem mem' b h) {c : Addr}
    (hne : c.1 = b.1 → c.2 / 4 ≠ b.2 / 4) : Xvmalloc.hdr mem' c = Xvmalloc.hdr mem c := by
  unfold Xvmalloc.hdr Mem.word
  rw [Nat.add_zero, hw.frame _ _ fun hboth => hne hboth.1 hboth.2]

theorem set_size_writes {v : Nat} (hv : v < 2 ^ 16) :
    Writes mem (set_size mem b v) b { hdr mem b with size := v } :=
  .of_setWord (decode_withLow _ hv)

theorem set_free_writes :
    Writes mem (set_flag mem b .BLOCK_FREE) b { hdr mem b with free := true } := by
  refine .of_setWord ((@decode_or_flag 0 _ (by decide)).trans ?_)
  simp [hdr, decode]

theorem set_prevFree_writes :
    Writes mem (set_flag mem b .PREV_FREE) b { hdr mem b with prevFree := true } := by
  refine .of_setWord ((@decode_or_flag 1 _ (by decide)).trans ?_)
  simp [hdr, decode]

theorem clear_free_writes :
    Writes mem (clear_flag mem b .BLOCK_FREE) b { hdr mem b with free := false } := by
  refine .of_setWord ((@decode_and_flag 0 _ (by decide)).trans ?_)
  simp [hdr, decode]

theorem clear_prevFree_writes :
    Writes mem (clear_flag mem b .PREV_FREE) b { hdr mem b with prevFree := false } := by
  refine .of_setWord ((@decode_and_flag 1 _ (by decide)).trans ?_)
  simp [hdr, decode]

theorem set_blockprev_writes {off : Nat} (hoff : off % 4 = 0) (hlt : off < 2 ^ 16) :
    Writes mem (set_blockprev mem b off) b { hdr mem b with prev := off } := by
  obtain ⟨hlt', hmask, hbits⟩ := or_flags (x := high (mem.word b 0)) hoff hlt
  have hdec := decode_withHigh (mem.word b 0) hlt'
  rw [hmask, hbits 0 (by decide), hbits 1 (by decide)] at hdec
  exact .of_setWord hdec

end header

/-! ### Links -/

/-- What a page and an offset point to. -/
def entry (a : Addr) : Option Addr := if a.1 = 0 then none else some a

theorem entry_mod {a : Addr} (ha : a.1 ≠ 0 → a.2 < 2 ^ 16) :
    entry (a.1, a.2 % 2 ^ 16) = entry a := by
  unfold entry
  by_cases hnull : a.1 = 0
  · rw [if_pos hnull, if_pos hnull]
  · rw [if_neg hnull, if_neg hnull, Nat.mod_eq_of_lt (ha hnull)]

theorem entry_eq_some {a b : Addr} : entry a = some b ↔ a = b ∧ b.1 ≠ 0 := by
  unfold entry
  by_cases hnull : a.1 = 0
  · rw [if_pos hnull]
    constructor
    · intro h
      cases h
    rintro ⟨rfl, hne⟩
    exact absurd hnull hne
  rw [if_neg hnull, some.injEq]
  constructor
  · rintro rfl
    exact ⟨rfl, hnull⟩
  exact fun h => h.1

theorem page_ne_zero {a b : Addr} (h : entry a = some b) : a.1 ≠ 0 := by
  obtain ⟨rfl, hne⟩ := entry_eq_some.mp h
  exact hne

theorem entry_eq_none {a : Addr} : entry a = none ↔ a.1 = 0 := by
  unfold entry
  by_cases hnull : a.1 = 0
  · simp [hnull]
  · simp [hnull]

def nextOf (mem : Mem) (b : Addr) : Option Addr := entry (next_page mem b, next_offset mem b)
def prevOf (mem : Mem) (b : Addr) : Option Addr := entry (prev_page mem b, prev_offset mem b)

/-- The word is one of the links of a block at `b`. -/
def LinkWord (b : Addr) (page w : Nat) : Prop := page = b.1 ∧ b.2 / 4 < w ∧ w ≤ b.2 / 4 + 3

/-- The headers with links at `b` and `c` have no word in common. -/
def Apart (b c : Addr) : Prop := b.1 = c.1 → b.2 / 4 + 3 < c.2 / 4 ∨ c.2 / 4 + 3 < b.2 / 4

theorem Apart.symm {b c : Addr} (h : Apart b c) : Apart c b := by
  intro heq
  exact (h heq.symm).symm

/-- A change of the links of `b`. -/
structure Relinks (mem mem' : Mem) (b : Addr) (next prev : Option Addr) : Prop where
  next : nextOf mem' b = next
  prev : prevOf mem' b = prev
  frame : ∀ page w, ¬LinkWord b page w → mem' page w = mem page w

section links
variable {mem mem' : Mem} {b c : Addr} {next prev : Option Addr}

theorem Relinks.trans {mem₂ : Mem} {next₂ prev₂ : Option Addr} (h₁ : Relinks mem mem' b next prev)
    (h₂ : Relinks mem' mem₂ b next₂ prev₂) : Relinks mem mem₂ b next₂ prev₂ :=
  ⟨h₂.next, h₂.prev, fun page w hne => (h₂.frame page w hne).trans (h₁.frame page w hne)⟩

/-- The links of `c` are not read from words that are the same. -/
theorem links_congr (hsame : ∀ w, c.2 / 4 < w → w ≤ c.2 / 4 + 3 → mem' c.1 w = mem c.1 w) :
    nextOf mem' c = nextOf mem c ∧ prevOf mem' c = prevOf mem c := by
  unfold nextOf prevOf next_page next_offset prev_page prev_offset Mem.word
  rw [hsame _ (by omega) (by omega), hsame _ (by omega) (by omega), hsame _ (by omega) (by omega)]
  exact ⟨rfl, rfl⟩

theorem Relinks.other (hre : Relinks mem mem' b next prev) (hapart : Apart b c) :
    nextOf mem' c = nextOf mem c ∧ prevOf mem' c = prevOf mem c := by
  refine links_congr fun w hlo hhi => hre.frame _ _ ?_
  rintro ⟨hpage, hlo', hhi'⟩
  rcases hapart hpage.symm with h | h <;> omega

/-- Only the way back from `b` changes. -/
theorem Relinks.back (hre : Relinks mem mem' b (nextOf mem b) prev) (hapart : b ≠ c → Apart b c) :
    nextOf mem' c = nextOf mem c ∧ prevOf mem' c = if some b = some c then prev else prevOf mem c := by
  by_cases hbc : b = c
  · subst hbc
    rw [if_pos rfl]
    exact ⟨hre.next, hre.prev⟩
  rw [if_neg (fun h => hbc (some.inj h))]
  exact hre.other (hapart hbc)

/-- A link is written. -/
theorem setWord_link {k v page w : Nat} (hne : ¬LinkWord b page w) (hk : 1 ≤ k ∧ k ≤ 3) :
    mem.setWord b k v page w = mem page w := by
  rw [setWord_apply, if_neg]
  rintro ⟨hpage, hw⟩
  exact hne ⟨hpage, by omega, by omega⟩

/-- `prev_page` and `prev_offset` are set together, and so are the others. -/
theorem set_prev_relinks {a : Addr} (ha : a.1 ≠ 0 → a.2 < 2 ^ 16) :
    Relinks mem (set_prev_offset (set_prev_page mem b a.1) b a.2) b (nextOf mem b) (entry a) := by
  refine ⟨?_, ?_, ?_⟩
  · unfold nextOf next_page next_offset set_prev_offset set_prev_page
    rw [word_setWord_self, high_withLow, word_setWord_other (by decide),
      word_setWord_other (by decide), word_setWord_other (by decide)]
  · unfold prevOf prev_page prev_offset set_prev_offset set_prev_page
    rw [word_setWord_self, low_withLow, word_setWord_other (by decide), word_setWord_self,
      entry_mod ha]
  intro page w hne
  unfold set_prev_offset set_prev_page
  rw [setWord_link hne (by decide), setWord_link hne (by decide)]

theorem set_next_relinks {a : Addr} (ha : a.1 ≠ 0 → a.2 < 2 ^ 16) :
    Relinks mem (set_next_offset (set_next_page mem b a.1) b a.2) b (entry a) (prevOf mem b) := by
  refine ⟨?_, ?_, ?_⟩
  · unfold nextOf next_page next_offset set_next_offset set_next_page
    rw [word_setWord_self, high_withHigh, word_setWord_other (by decide), word_setWord_self,
      entry_mod ha]
  · unfold prevOf prev_page prev_offset set_next_offset set_next_page
    rw [word_setWord_self, low_withHigh, word_setWord_other (by decide),
      word_setWord_other (by decide), word_setWord_other (by decide)]
  intro page w hne
  unfold set_next_offset set_next_page
  rw [setWord_link hne (by decide), setWord_link hne (by decide)]

end links

/-! ## Bitmaps -/

theorem getLsbD_set_bit (w : BitVec 32) {i : Nat} (hi : i < 32) (j : Nat) :
    (set_bit w i).getLsbD j = (w.getLsbD j || decide (j = i)) := by
  unfold set_bit
  rw [getLsbD_or, getLsbD_shiftLeft, getLsbD_one]
  congr 1
  rw [Bool.eq_iff_iff]
  simp only [and_eq_true, not_eq_true', decide_eq_true_eq, decide_eq_false_iff_not]
  omega

theorem getLsbD_clear_bit (w : BitVec 32) {i : Nat} (hi : i < 32) (j : Nat) :
    (clear_bit w i).getLsbD j = (w.getLsbD j && !decide (j = i)) := by
  unfold clear_bit
  rw [getLsbD_and, getLsbD_not, getLsbD_shiftLeft, getLsbD_one]
  by_cases hj : j < 32
  · congr 1
    rw [Bool.eq_iff_iff]
    simp only [and_eq_true, not_eq_true', decide_eq_true_eq, decide_eq_false_iff_not,
      and_eq_false_iff, not_eq_false']
    omega
  rw [getLsbD_of_ge w j (by omega), Bool.false_and, Bool.false_and]

theorem eq_zero_iff (w : BitVec 32) : w = 0#32 ↔ ∀ j, w.getLsbD j = false := by
  constructor
  · rintro rfl j
    exact getLsbD_zero
  intro h
  apply eq_of_getLsbD_eq
  intro j _
  rw [h j, getLsbD_zero]

theorem ne_zero_iff (w : BitVec 32) : w ≠ 0#32 ↔ ∃ j, w.getLsbD j = true := by
  rw [ne_eq, eq_zero_iff, not_forall]
  simp

theorem ffs_spec {w : BitVec 32} (h : w ≠ 0#32) :
    w.getLsbD (ffs w) = true ∧ ∀ j, j < ffs w → w.getLsbD j = false := by
  obtain ⟨j, hj⟩ := (ne_zero_iff w).mp h
  have hj32 : j < 32 := lt_of_getLsbD hj
  unfold ffs
  cases hfind : (List.range 32).find? (fun i => w.getLsbD i) with
  | none =>
    rw [List.find?_eq_none] at hfind
    exact absurd hj (hfind j (mem_range.mpr hj32))
  | some i => ?_
  rw [List.find?_range_eq_some] at hfind
  refine ⟨hfind.1, ?_⟩
  intro k hk
  simpa using hfind.2.2 k hk

/-- The bits say which lists are not empty (`E`), and which groups of 32. -/
structure Bitmaps (pool : Pool) (E : Nat → Prop) : Prop where
  sl : ∀ i, (pool.slbitmap (i / 32)).getLsbD (i % 32) = true ↔ E i
  fl : ∀ k, pool.flbitmap.getLsbD k = true ↔ pool.slbitmap k ≠ 0#32

section bitmaps
variable {pool : Pool} {E : Nat → Prop}

theorem Bitmaps.set {i : Nat} (hbits : Bitmaps pool E) (hi : i < 1024) {freelist : Nat → Addr} :
    Bitmaps { pool with
      freelist := freelist
      slbitmap := update pool.slbitmap (i / 32)
        (set_bit (pool.slbitmap (i / 32)) (i % 32))
      flbitmap := set_bit pool.flbitmap (i / 32) } (fun j => j = i ∨ E j) := by
  refine ⟨?_, ?_⟩
  · intro j
    show (update pool.slbitmap (i / 32) _ (j / 32)).getLsbD (j % 32) = true ↔ _
    by_cases hk : j / 32 = i / 32
    · rw [hk, update_self, getLsbD_set_bit _ (Nat.mod_lt _ (by decide)),
        or_eq_true, decide_eq_true_eq, ← hk, hbits.sl j]
      constructor
      · rintro (h | h)
        · exact .inr h
        · exact .inl (by omega)
      rintro (rfl | h)
      · exact .inr rfl
      · exact .inl h
    rw [update_of_ne hk, hbits.sl j]
    constructor
    · exact .inr
    rintro (rfl | h)
    · exact absurd rfl hk
    · exact h
  intro k
  show (set_bit pool.flbitmap (i / 32)).getLsbD k = true ↔
    update pool.slbitmap (i / 32) _ k ≠ 0#32
  rw [getLsbD_set_bit _ (by omega), or_eq_true, decide_eq_true_eq, hbits.fl k]
  by_cases hk : k = i / 32
  · subst hk
    rw [update_self, ne_zero_iff (set_bit _ _)]
    refine ⟨fun _ => ⟨i % 32, ?_⟩, fun _ => .inr rfl⟩
    rw [getLsbD_set_bit _ (Nat.mod_lt _ (by decide))]
    simp
  rw [update_of_ne hk]
  simp [hk]

theorem Bitmaps.clear {i : Nat} (hbits : Bitmaps pool E) (hi : i < 1024) :
    Bitmaps (clear_bits pool i) (fun j => j ≠ i ∧ E j) := by
  refine ⟨?_, ?_⟩
  · intro j
    show (update pool.slbitmap (i / 32) _ (j / 32)).getLsbD (j % 32) = true ↔ _
    by_cases hk : j / 32 = i / 32
    · rw [hk, update_self]
      show (clear_bit (pool.slbitmap (i / 32)) (i % 32)).getLsbD _ = true ↔ _
      rw [getLsbD_clear_bit _ (Nat.mod_lt _ (by decide)), and_eq_true, not_eq_true',
        decide_eq_false_iff_not, ← hk, hbits.sl j]
      constructor
      · rintro ⟨h, hne⟩
        exact ⟨fun heq => hne (by rw [heq]), h⟩
      rintro ⟨hne, h⟩
      exact ⟨h, by omega⟩
    rw [update_of_ne hk, hbits.sl j]
    constructor
    · intro h
      exact ⟨fun heq => hk (by rw [heq]), h⟩
    exact fun h => h.2
  intro k
  show (if clear_bit (pool.slbitmap (i / 32)) (i % 32) = 0#32
      then clear_bit pool.flbitmap (i / 32) else pool.flbitmap).getLsbD k = true ↔
    update pool.slbitmap (i / 32) (clear_bit (pool.slbitmap (i / 32)) (i % 32)) k ≠ 0#32
  by_cases hk : k = i / 32
  · subst hk
    rw [update_self]
    by_cases hzero : clear_bit (pool.slbitmap (i / 32)) (i % 32) = 0#32
    · rw [if_pos hzero, getLsbD_clear_bit _ (by omega)]
      simp [hzero]
    rw [if_neg hzero, hbits.fl]
    refine ⟨fun _ => hzero, fun _ hall => hzero ?_⟩
    rw [eq_zero_iff] at hall ⊢
    intro j
    rw [getLsbD_clear_bit _ (Nat.mod_lt _ (by decide)), hall j, Bool.false_and]
  rw [update_of_ne hk, ← hbits.fl k]
  by_cases hzero : clear_bit (pool.slbitmap (i / 32)) (i % 32) = 0#32
  · rw [if_pos hzero, getLsbD_clear_bit _ (by omega)]
    simp [hk]
  rw [if_neg hzero]

/-- A list of the group from bit `k` on is not empty. -/
theorem Bitmaps.exists_of_fl (hbits : Bitmaps pool E) {k : Nat}
    (hk : pool.flbitmap.getLsbD k = true) : E (k * 32 + ffs (pool.slbitmap k)) ∧
      ∀ j, j < k * 32 + ffs (pool.slbitmap k) → j / 32 = k → ¬E j := by
  obtain ⟨hbit, hleast⟩ := ffs_spec ((hbits.fl k).mp hk)
  have hlt : ffs (pool.slbitmap k) < 32 := lt_of_getLsbD hbit
  refine ⟨?_, ?_⟩
  · rw [← hbits.sl, show (k * 32 + ffs (pool.slbitmap k)) / 32 = k by omega,
      show (k * 32 + ffs (pool.slbitmap k)) % 32 = ffs (pool.slbitmap k) by omega]
    exact hbit
  intro j hj hgroup hE
  have hset := (hbits.sl j).mpr hE
  rw [hgroup, hleast _ (by omega)] at hset
  cases hset

theorem Bitmaps.fl_of_exists (hbits : Bitmaps pool E) {j : Nat} (hE : E j) :
    pool.flbitmap.getLsbD (j / 32) = true := by
  rw [hbits.fl, ne_zero_iff]
  exact ⟨j % 32, (hbits.sl j).mpr hE⟩

/-- **The first list from `i` on that is not empty** is found, if there is one. -/
theorem Bitmaps.find_block {size : Nat} (hbits : Bitmaps pool E) :
    (∃ i, get_index size ≤ i ∧ E i ∧ (∀ j, get_index size ≤ j → j < i → ¬E j) ∧
      find_block pool size = (i, pool.freelist i)) ∨
    (∀ j, get_index size ≤ j → ¬E j) ∧ find_block pool size = (0, 0, 0) := by
  unfold Xvmalloc.find_block
  generalize get_index size = i₀
  simp only [show BITS_PER_LONG = 32 from rfl]
  by_cases hfl : pool.flbitmap = 0#32
  · refine .inr ⟨?_, if_pos hfl⟩
    intro j _ hE
    have hbit := hbits.fl_of_exists hE
    rw [hfl, getLsbD_zero] at hbit
    cases hbit
  rw [if_neg hfl]
  by_cases hfirst : (pool.slbitmap (i₀ / 32)).getLsbD (i₀ % 32) = true
  · exact .inl ⟨i₀, Nat.le_refl _, (hbits.sl i₀).mp hfirst, fun j h h' => by omega, if_pos hfirst⟩
  rw [if_neg hfirst]
  have hnot₀ : ¬E i₀ := fun hE => hfirst ((hbits.sl i₀).mpr hE)
  by_cases hsame : i₀ % 32 + 1 ≠ 32 ∧ pool.slbitmap (i₀ / 32) >>> (i₀ % 32 + 1) ≠ 0#32
  · -- The rest of the same word.
    rw [if_pos hsame]
    obtain ⟨hbit, hleast⟩ := ffs_spec hsame.2
    rw [getLsbD_ushiftRight] at hbit
    have hlt := lt_of_getLsbD hbit
    generalize ffs (pool.slbitmap (i₀ / 32) >>> (i₀ % 32 + 1)) = d at hbit hlt hleast ⊢
    refine .inl ⟨i₀ + d + 1, by omega, ?_, ?_, rfl⟩
    · rw [← hbits.sl, show (i₀ + d + 1) / 32 = i₀ / 32 by omega,
        show (i₀ + d + 1) % 32 = i₀ % 32 + 1 + d by omega]
      exact hbit
    intro j hge hj hE
    have hset := (hbits.sl j).mpr hE
    rcases Nat.eq_or_lt_of_le hge with rfl | hgt
    · exact hnot₀ hE
    have hskip := hleast (j - i₀ - 1) (by omega)
    rw [getLsbD_ushiftRight, show i₀ % 32 + 1 + (j - i₀ - 1) = j % 32 by omega,
      show i₀ / 32 = j / 32 by omega, hset] at hskip
    cases hskip
  rw [if_neg hsame]
  -- There is none in this word.
  have hword : ∀ j, i₀ ≤ j → j / 32 = i₀ / 32 → ¬E j := by
    intro j hge hgroup hE
    rcases Nat.eq_or_lt_of_le hge with rfl | hgt
    · exact hnot₀ hE
    refine hsame ⟨by omega, (ne_zero_iff _).mpr ⟨j - i₀ - 1, ?_⟩⟩
    rw [getLsbD_ushiftRight, show i₀ % 32 + 1 + (j - i₀ - 1) = j % 32 by omega, ← hgroup]
    exact (hbits.sl j).mpr hE
  by_cases hrest : pool.flbitmap >>> (i₀ / 32 + 1) = 0#32
  · refine .inr ⟨?_, if_pos hrest⟩
    intro j hge hE
    by_cases hgroup : j / 32 = i₀ / 32
    · exact hword j hge hgroup hE
    have hbit := hbits.fl_of_exists hE
    have hclear := (eq_zero_iff _).mp hrest (j / 32 - (i₀ / 32 + 1))
    rw [getLsbD_ushiftRight,
      show i₀ / 32 + 1 + (j / 32 - (i₀ / 32 + 1)) = j / 32 by omega, hbit] at hclear
    cases hclear
  rw [if_neg hrest]
  obtain ⟨hbit, hleast⟩ := ffs_spec hrest
  rw [getLsbD_ushiftRight] at hbit
  generalize ffs (pool.flbitmap >>> (i₀ / 32 + 1)) = d at hbit hleast ⊢
  rw [show i₀ / 32 + 1 + d = i₀ / 32 + d + 1 by omega] at hbit
  obtain ⟨hE, hfirst'⟩ := hbits.exists_of_fl hbit
  generalize hi : (i₀ / 32 + d + 1) * 32 + ffs (pool.slbitmap (i₀ / 32 + d + 1)) = i at hE hfirst'
  have hlt : ffs (pool.slbitmap (i₀ / 32 + d + 1)) < 32 :=
    lt_of_getLsbD (ffs_spec ((hbits.fl _).mp hbit)).1
  refine .inl ⟨i, by omega, hE, ?_, by subst hi; rfl⟩
  intro j hge hj hEj
  by_cases hgroup : j / 32 = i₀ / 32
  · exact hword j hge hgroup hEj
  by_cases hlast : j / 32 = i₀ / 32 + d + 1
  · exact hfirst' j hj hlast hEj
  have hskip := hleast (j / 32 - (i₀ / 32 + 1)) (by omega)
  rw [getLsbD_ushiftRight, show i₀ / 32 + 1 + (j / 32 - (i₀ / 32 + 1)) = j / 32 by omega,
    hbits.fl_of_exists hEj] at hskip
  cases hskip

end bitmaps

/-! ## Free lists -/

/-- The block is in one of the lists. -/
def Listed (L : Nat → List Addr) (x : Addr) : Prop := ∃ i, i < NUM_FREE_LISTS ∧ x ∈ L i

/-- The free lists in memory are `L`. -/
structure FreeLists (pool : Pool) (mem : Mem) (L : Nat → List Addr) : Prop where
  head : ∀ i, i < NUM_FREE_LISTS → entry (pool.freelist i) = (L i).head?
  linked : ∀ i, i < NUM_FREE_LISTS → Dlist.Linked (nextOf mem) (prevOf mem) none (L i)
  nodup : ∀ i, i < NUM_FREE_LISTS → (L i).Nodup
  once : ∀ i j x, i < NUM_FREE_LISTS → j < NUM_FREE_LISTS → x ∈ L i → x ∈ L j → i = j
  apart : ∀ x y, Listed L x → Listed L y → x ≠ y → Apart x y
  valid : ∀ x, Listed L x → x.1 ≠ 0 ∧ x.2 < 2 ^ 16
  bits : Bitmaps pool fun i => i < NUM_FREE_LISTS ∧ L i ≠ []

section lists
variable {pool : Pool} {mem mem' : Mem} {L : Nat → List Addr}

section
variable (hfl : FreeLists pool mem L)
include hfl

/-- Words that are no links may change. -/
theorem FreeLists.frame
    (hframe : ∀ x page w, Listed L x → LinkWord x page w → mem' page w = mem page w) :
    FreeLists pool mem' L := by
  have hlinks : ∀ x, Listed L x → nextOf mem' x = nextOf mem x ∧ prevOf mem' x = prevOf mem x :=
    fun x hx => links_congr fun w hlo hhi => hframe x x.1 w hx ⟨rfl, hlo, hhi⟩
  refine ⟨hfl.head, ?_, hfl.nodup, hfl.once, hfl.apart, hfl.valid, hfl.bits⟩
  intro i hi
  exact (hfl.linked i hi).congr (fun x hx => (hlinks x ⟨i, hi, hx⟩).1)
    (fun x hx => (hlinks x ⟨i, hi, hx⟩).2)

variable {i : Nat}

/-- One list gets another first block. -/
theorem FreeLists.head_update {a : Addr} {l : List Addr} (ha : entry a = l.head?) {j : Nat}
    (hj : j < NUM_FREE_LISTS) :
    entry (update pool.freelist i a j) = (update L i l j).head? := by
  by_cases hji : j = i
  · rw [hji, update_self, update_self, ha]
  · rw [update_of_ne hji, update_of_ne hji, hfl.head j hj]

/-- The numbers of the pool that are not about the lists may change. -/
theorem FreeLists.of_pool {total_pages : Nat} :
    FreeLists { pool with total_pages := total_pages } mem L :=
  ⟨hfl.head, hfl.linked, hfl.nodup, hfl.once, hfl.apart, hfl.valid,
    ⟨hfl.bits.sl, hfl.bits.fl⟩⟩

end

/-- What `insert_block` does to the links of a block that is not in a list yet. -/
structure Pushes (mem mem' : Mem) (L : Nat → List Addr) (i : Nat) (n : Addr) : Prop where
  next : ∀ x, x = n ∨ Listed L x → nextOf mem' x = if x = n then (L i).head? else nextOf mem x
  prev : ∀ x, x = n ∨ Listed L x →
    prevOf mem' x = if x = n then none else if (L i).head? = some x then some n else prevOf mem x
  frame : ∀ page w, ¬LinkWord n page w → (∀ x, Listed L x → ¬LinkWord x page w) →
    mem' page w = mem page w

section
variable {s : State} {n : Addr}
variable (hfl : FreeLists s.pool s.mem L) (hvalid : n.1 ≠ 0 ∧ n.2 < 2 ^ 16) (hnew : ¬Listed L n)
variable (hapart : ∀ x, Listed L x → Apart n x)
include hfl hvalid hnew hapart

/-- The block gets its links, and the old head its new predecessor. -/
theorem insert_block_links (hi : get_index_for_insert (size s.mem n) < NUM_FREE_LISTS) :
    Pushes s.mem (insert_block s n.1 n.2 n).mem L (get_index_for_insert (size s.mem n)) n := by
  have hhead := hfl.head _ hi
  have hlisted : ∀ m, (L (get_index_for_insert (size s.mem n))).head? = some m → Listed L m :=
    fun m hm => ⟨_, hi, mem_of_head? hm⟩
  unfold insert_block
  simp only
  generalize get_index_for_insert (size s.mem n) = i at hi hhead hlisted ⊢
  -- The links of the block itself.
  have hown := (@set_prev_relinks s.mem n ((0, 0)) (fun h => absurd rfl h)).trans
    (set_next_relinks (b := n) (a := s.pool.freelist i) (by
      intro hne
      have hsome := hhead
      rw [entry, if_neg hne] at hsome
      exact (hfl.valid _ (hlisted _ hsome.symm)).2))
  have hprev : prevOf (set_prev_offset (set_prev_page s.mem n 0) n 0) n = none :=
    (@set_prev_relinks s.mem n ((0, 0)) (fun h => absurd rfl h)).prev
  rw [hprev, hhead] at hown
  generalize set_next_offset (set_next_page (set_prev_offset (set_prev_page s.mem n 0) n 0) n
    (s.pool.freelist i).1) n (s.pool.freelist i).2 = mem₁ at hown ⊢
  have hother : ∀ x, Listed L x → nextOf mem₁ x = nextOf s.mem x ∧ prevOf mem₁ x = prevOf s.mem x :=
    fun x hx => hown.other (hapart x hx)
  have hnn : ∀ x, Listed L x → x ≠ n := by
    rintro x hx rfl
    exact hnew hx
  cases hfirst : (L i).head? with
  | none =>
    have hnull : next_page mem₁ n = 0 := by
      have hnone := hown.next
      rw [hfirst] at hnone
      exact entry_eq_none.mp hnone
    rw [if_neg (not_not_intro hnull)]
    refine ⟨?_, ?_, fun page w hne _ => hown.frame page w hne⟩
    · rintro x (rfl | hx)
      · rw [if_pos rfl, hown.next]
      · rw [if_neg (hnn x hx), (hother x hx).1]
    rintro x (rfl | hx)
    · rw [if_pos rfl, hown.prev]
    · rw [if_neg (hnn x hx), hfirst, if_neg (by simp), (hother x hx).2]
  | some m => ?_
  have hm := hlisted m hfirst
  have hat := hown.next
  rw [hfirst] at hat
  rw [if_pos (page_ne_zero hat), (entry_eq_some.mp hat).1]
  -- The old head.
  have hre := @set_prev_relinks mem₁ m n fun _ => hvalid.2
  rw [show entry n = some n from entry_eq_some.mpr ⟨rfl, hvalid.1⟩] at hre
  have hn₁ := hre.other (hapart m hm).symm
  have hback := fun x (hx : Listed L x) => hre.back (hfl.apart m x hm hx)
  refine ⟨?_, ?_, ?_⟩
  · rintro x (rfl | hx)
    · rw [if_pos rfl, hn₁.1, hown.next]
    · rw [if_neg (hnn x hx), (hback x hx).1, (hother x hx).1]
  · rintro x (rfl | hx)
    · rw [if_pos rfl, hn₁.2, hown.prev]
    · rw [if_neg (hnn x hx), hfirst, (hback x hx).2, (hother x hx).2]
  intro page w hown' hall
  rw [hre.frame page w (hall m hm), hown.frame page w hown']

/-- **`insert_block`** puts the block in front of the list for its size. -/
theorem insert_block_spec (hindex : get_index_for_insert (size s.mem n) = i)
    (hi : i < NUM_FREE_LISTS) :
    FreeLists (insert_block s n.1 n.2 n).pool (insert_block s n.1 n.2 n).mem
        (update L i (n :: L i)) ∧
      (∀ page w, ¬LinkWord n page w → (∀ x, Listed L x → ¬LinkWord x page w) →
        (insert_block s n.1 n.2 n).mem page w = s.mem page w) := by
  subst hindex
  have hpush := insert_block_links hfl hvalid hnew hapart hi
  refine ⟨?_, hpush.frame⟩
  have hpool : (insert_block s n.1 n.2 n).pool = { s.pool with
      freelist := update s.pool.freelist (get_index_for_insert (size s.mem n)) n
      slbitmap := update s.pool.slbitmap (get_index_for_insert (size s.mem n) / 32)
        (set_bit (s.pool.slbitmap (get_index_for_insert (size s.mem n) / 32))
          (get_index_for_insert (size s.mem n) % 32))
      flbitmap := set_bit s.pool.flbitmap (get_index_for_insert (size s.mem n) / 32) } := rfl
  rw [hpool]
  generalize get_index_for_insert (size s.mem n) = i at hi hpush ⊢
  generalize (insert_block s n.1 n.2 n).mem = mem' at hpush ⊢
  -- Who is listed afterwards.
  have hcases : ∀ j x, x ∈ update L i (n :: L i) j → x = n ∧ j = i ∨ x ∈ L j := by
    intro j x hx
    by_cases hj : j = i
    · subst hj
      rw [update_self] at hx
      rcases mem_cons.mp hx with rfl | hx
      · exact .inl ⟨rfl, rfl⟩
      · exact .inr hx
    rw [update_of_ne hj] at hx
    exact .inr hx
  have hlisted : ∀ x, Listed (update L i (n :: L i)) x → x = n ∨ Listed L x := by
    rintro x ⟨j, hj, hx⟩
    rcases hcases j x hx with ⟨rfl, _⟩ | hx
    · exact .inl rfl
    · exact .inr ⟨j, hj, hx⟩
  have hn : n ∉ L i := fun hmem => hnew ⟨i, hi, hmem⟩
  refine ⟨?_, ?_, ?_, ?_, ?_, ?_, ?_⟩
  · intro j hj
    exact hfl.head_update (entry_eq_some.mpr ⟨rfl, hvalid.1⟩) hj
  · intro j hj
    by_cases hji : j = i
    · subst hji
      rw [update_self]
      refine (hfl.linked j hj).push hn (hfl.nodup j hj) ?_ ?_
      · rintro x (rfl | hx)
        · exact hpush.next x (.inl rfl)
        · exact hpush.next x (.inr ⟨j, hj, hx⟩)
      rintro x (rfl | hx)
      · exact hpush.prev x (.inl rfl)
      · exact hpush.prev x (.inr ⟨j, hj, hx⟩)
    rw [update_of_ne hji]
    have hne : ∀ x ∈ L j, x ≠ n := by
      rintro x hx rfl
      exact hnew ⟨j, hj, hx⟩
    refine (hfl.linked j hj).congr ?_ ?_
    · intro x hx
      rw [hpush.next x (.inr ⟨j, hj, hx⟩), if_neg (hne x hx)]
    intro x hx
    have hhead : ¬(L i).head? = some x := fun h =>
      hji (hfl.once j i x hj hi hx (mem_of_head? h))
    rw [hpush.prev x (.inr ⟨j, hj, hx⟩), if_neg (hne x hx), if_neg hhead]
  · intro j hj
    by_cases hji : j = i
    · subst hji
      rw [update_self]
      exact nodup_cons.mpr ⟨hn, hfl.nodup j hj⟩
    rw [update_of_ne hji]
    exact hfl.nodup j hj
  · intro j k x hj hk hxj hxk
    rcases hcases j x hxj with ⟨rfl, rfl⟩ | hoj
    · rcases hcases k x hxk with ⟨_, rfl⟩ | hok
      · rfl
      · exact absurd ⟨k, hk, hok⟩ hnew
    rcases hcases k x hxk with ⟨rfl, _⟩ | hok
    · exact absurd ⟨j, hj, hoj⟩ hnew
    · exact hfl.once j k x hj hk hoj hok
  · intro x y hx hy hne
    rcases hlisted x hx with rfl | hox
    · rcases hlisted y hy with rfl | hoy
      · exact absurd rfl hne
      · exact hapart y hoy
    rcases hlisted y hy with rfl | hoy
    · exact (hapart x hox).symm
    · exact hfl.apart x y hox hoy hne
  · intro x hx
    rcases hlisted x hx with rfl | hx
    · exact hvalid
    · exact hfl.valid x hx
  have hlt : i < 1024 := Nat.lt_of_lt_of_le hi (by decide)
  have hset := @Bitmaps.set _ _ _ hfl.bits hlt (update s.pool.freelist i n)
  refine ⟨fun j => (hset.sl j).trans ?_, hset.fl⟩
  by_cases hji : j = i
  · subst hji
    simp [hi]
  rw [update_of_ne hji]
  simp [hji]

end

/-- Lists that have become shorter: what is left to say is about the links and
the bits. -/
theorem FreeLists.shrink {pool' : Pool} {l : List Addr} (hfl : FreeLists pool mem L)
    (hi : i < NUM_FREE_LISTS) (hsub : l.Sublist (L i)) (hhead : ∀ j, j < NUM_FREE_LISTS →
      entry (pool'.freelist j) = (update L i l j).head?)
    (hlinked : Dlist.Linked (nextOf mem') (prevOf mem') none l)
    (hothers : ∀ j, j < NUM_FREE_LISTS → j ≠ i → ∀ x ∈ L j,
      nextOf mem' x = nextOf mem x ∧ prevOf mem' x = prevOf mem x)
    (hbits : Bitmaps pool' fun j => j < NUM_FREE_LISTS ∧ update L i l j ≠ []) :
    FreeLists pool' mem' (update L i l) := by
  have hmem : ∀ j x, x ∈ update L i l j → x ∈ L j := by
    intro j x hx
    by_cases hj : j = i
    · subst hj
      rw [update_self] at hx
      exact hsub.subset hx
    rw [update_of_ne hj] at hx
    exact hx
  have hlisted : ∀ x, Listed (update L i l) x → Listed L x := by
    rintro x ⟨j, hj, hx⟩
    exact ⟨j, hj, hmem j x hx⟩
  refine ⟨hhead, ?_, ?_, ?_, ?_, ?_, hbits⟩
  · intro j hj
    by_cases hji : j = i
    · subst hji
      rw [update_self]
      exact hlinked
    rw [update_of_ne hji]
    exact (hfl.linked j hj).congr (fun x hx => (hothers j hj hji x hx).1)
      (fun x hx => (hothers j hj hji x hx).2)
  · intro j hj
    by_cases hji : j = i
    · subst hji
      rw [update_self]
      exact hsub.nodup (hfl.nodup j hj)
    rw [update_of_ne hji]
    exact hfl.nodup j hj
  · intro j k x hj hk hxj hxk
    exact hfl.once j k x hj hk (hmem j x hxj) (hmem k x hxk)
  · intro x y hx hy hne
    exact hfl.apart x y (hlisted x hx) (hlisted y hy) hne
  intro x hx
  exact hfl.valid x (hlisted x hx)

variable {s : State} {n : Addr} {i : Nat}

/-- **`remove_block_head`** takes the first block out of a list. -/
theorem remove_block_head_spec {rest : List Addr} (hfl : FreeLists s.pool s.mem L)
    (hi : i < NUM_FREE_LISTS) (hlist : L i = n :: rest) :
    FreeLists (remove_block_head s n i).pool (remove_block_head s n i).mem
        (update L i rest) ∧
      (∀ page w, (∀ x, Listed L x → ¬LinkWord x page w) →
        (remove_block_head s n i).mem page w = s.mem page w) := by
  have hn : Listed L n := ⟨i, hi, by rw [hlist]; exact mem_cons_self⟩
  have hnodup := hfl.nodup i hi
  have hlinked := hfl.linked i hi
  rw [hlist] at hnodup hlinked
  obtain ⟨hnrest, hnodup'⟩ := nodup_cons.mp hnodup
  obtain ⟨_, hnext, hrest⟩ := hlinked
  have hsub : rest.Sublist (L i) := by
    rw [hlist]
    exact sublist_cons_self n rest
  have hown := @set_prev_relinks s.mem n ((0, 0)) (fun h => absurd rfl h)
  have hne : ∀ j, j < NUM_FREE_LISTS → j ≠ i → ∀ x ∈ L j, x ≠ n := by
    rintro j hj hji x hx rfl
    exact hji (hfl.once j i x hj hi hx (by rw [hlist]; exact mem_cons_self))
  have hentry : entry (next_page s.mem n, next_offset s.mem n) = rest.head? := hnext
  have hhead := fun j (hj : j < NUM_FREE_LISTS) => @FreeLists.head_update _ _ _ hfl i _ _ hentry j hj
  unfold remove_block_head
  simp only
  generalize hmem₁ : set_prev_offset (set_prev_page s.mem n 0) n 0 = mem₁ at hown ⊢
  cases hfirst : rest.head? with
  | none =>
    -- It was the only one.
    obtain rfl : rest = [] := List.head?_eq_none_iff.mp hfirst
    rw [if_pos (entry_eq_none.mp hentry)]
    refine ⟨hfl.shrink hi hsub hhead trivial ?_ ?_, fun page w hall =>
      hown.frame page w (hall n hn)⟩
    · intro j hj hji x hx
      exact hown.other (hfl.apart n x hn ⟨j, hj, hx⟩ (hne j hj hji x hx).symm)
    have hlt : i < 1024 := Nat.lt_of_lt_of_le hi (by decide)
    have hclear := @Bitmaps.clear ({ s.pool with
      freelist := update s.pool.freelist i
        (next_page s.mem n, next_offset s.mem n) }) _ _ ⟨hfl.bits.sl, hfl.bits.fl⟩ hlt
    refine ⟨fun j => (hclear.sl j).trans ?_, hclear.fl⟩
    by_cases hji : j = i
    · subst hji
      simp
    rw [update_of_ne hji]
    simp [hji]
  | some m => ?_
  have hm : m ∈ rest := mem_of_head? hfirst
  have hmL : Listed L m := ⟨i, hi, hsub.subset hm⟩
  rw [hfirst] at hentry
  have hat := (entry_eq_some.mp hentry).1
  rw [if_neg (page_ne_zero hentry)]
  simp only [hat]
  have hre := @set_prev_relinks mem₁ m ((0, 0)) (fun h => absurd rfl h)
  -- Nothing changes for the blocks other than `n` but the way back from `m`.
  have hlinks : ∀ x, Listed L x → x ≠ n →
      nextOf (set_prev_offset (set_prev_page mem₁ m 0) m 0) x = nextOf s.mem x ∧
      prevOf (set_prev_offset (set_prev_page mem₁ m 0) m 0) x =
        if some m = some x then none else prevOf s.mem x := by
    intro x hx hxn
    have hother := hown.other (hfl.apart n x hn hx hxn.symm)
    rw [← hother.1, ← hother.2]
    exact hre.back (hfl.apart m x hmL hx)
  have hxn : ∀ x ∈ rest, x ≠ n := by
    rintro x hx rfl
    exact hnrest hx
  refine ⟨hfl.shrink hi hsub ?_ ?_ ?_ ?_, fun page w hall => ?_⟩
  · rw [← hat]
    exact hhead
  · refine hrest.rebase hnodup' ?_ ?_
    · intro x hx
      exact (hlinks x ⟨i, hi, hsub.subset hx⟩ (hxn x hx)).1
    intro x hx
    rw [(hlinks x ⟨i, hi, hsub.subset hx⟩ (hxn x hx)).2, hfirst]
  · intro j hj hji x hx
    have hxm : ¬some m = some x := by
      rintro h
      cases h
      exact hji (hfl.once j i m hj hi hx (hsub.subset hm))
    have hboth := hlinks x ⟨j, hj, hx⟩ (hne j hj hji x hx)
    rw [if_neg hxm] at hboth
    exact hboth
  · refine ⟨fun j => (hfl.bits.sl j).trans ?_, hfl.bits.fl⟩
    by_cases hji : j = i
    · subst hji
      rw [update_self, hlist]
      have hrest' : rest ≠ [] := ne_nil_of_mem hm
      simp [hrest']
    rw [update_of_ne hji]
  · rw [hre.frame page w (hall m hmL), hown.frame page w (hall n hn)]

/-- Writing the next link of `t` from that of another block. -/
theorem copy_next_relinks {t n : Addr} (hapart : Apart t n) :
    Relinks mem (set_next_offset (set_next_page mem t (next_page mem n)) t
      (next_offset (set_next_page mem t (next_page mem n)) n)) t (nextOf mem n) (prevOf mem t) := by
  have hoff : next_offset (set_next_page mem t (next_page mem n)) n = next_offset mem n := by
    unfold next_offset set_next_page
    rw [word_setWord_ne]
    intro hpage
    rcases hapart hpage.symm with h | h <;> omega
  rw [hoff]
  exact set_next_relinks (a := (next_page mem n, next_offset mem n)) fun _ => high_lt _

theorem copy_prev_relinks {t n : Addr} (hapart : Apart t n) :
    Relinks mem (set_prev_offset (set_prev_page mem t (prev_page mem n)) t
      (prev_offset (set_prev_page mem t (prev_page mem n)) n)) t (nextOf mem t) (prevOf mem n) := by
  have hoff : prev_offset (set_prev_page mem t (prev_page mem n)) n = prev_offset mem n := by
    unfold prev_offset set_prev_page
    rw [word_setWord_ne]
    intro hpage
    rcases hapart hpage.symm with h | h <;> omega
  rw [hoff]
  exact set_prev_relinks (a := (prev_page mem n, prev_offset mem n)) fun _ => Nat.mod_lt _ (by decide)

/-- What `unlink_block` does to the links of the others. -/
theorem unlink_block_links {t : Addr} (hfl : FreeLists pool mem L) (hn : Listed L n)
    (hprev : prevOf mem n = some t) (ht : Listed L t) (htn : t ≠ n)
    (hnext : ∀ m, nextOf mem n = some m → Listed L m ∧ m ≠ n ∧ m ≠ t) :
    (∀ x, Listed L x → x ≠ n →
      nextOf (unlink_block mem n) x =
        (if prevOf mem n = some x then nextOf mem n else nextOf mem x) ∧
      prevOf (unlink_block mem n) x =
        if nextOf mem n = some x then prevOf mem n else prevOf mem x) ∧
    ∀ page w, (∀ x, Listed L x → ¬LinkWord x page w) → unlink_block mem n page w = mem page w := by
  have hat := hfl.apart t n ht hn htn
  unfold unlink_block
  simp only [if_pos (page_ne_zero hprev), (entry_eq_some.mp hprev).1]
  -- The one before `n`.
  have hre := @copy_next_relinks mem _ _ hat
  generalize set_next_offset (set_next_page mem t (next_page mem n)) t
    (next_offset (set_next_page mem t (next_page mem n)) n) = mem₁ at hre ⊢
  have hn₁ := hre.other hat
  have hx₁ : ∀ x, Listed L x → x ≠ n →
      nextOf mem₁ x = (if some t = some x then nextOf mem n else nextOf mem x) ∧
      prevOf mem₁ x = prevOf mem x := by
    intro x hx hxn
    by_cases hxt : t = x
    · subst hxt
      rw [if_pos rfl]
      exact ⟨hre.next, hre.prev⟩
    rw [if_neg (fun h => hxt (some.inj h))]
    exact hre.other (hfl.apart t x ht hx hxt)
  rw [hprev]
  cases hsucc : nextOf mem n with
  | none =>
    have hnull : next_page mem₁ n = 0 := entry_eq_none.mp (hn₁.1.trans hsucc)
    rw [if_neg (not_not_intro hnull)]
    refine ⟨?_, fun page w hall => hre.frame page w (hall t ht)⟩
    intro x hx hxn
    rw [hsucc] at hx₁
    refine ⟨(hx₁ x hx hxn).1, ?_⟩
    rw [if_neg (by simp)]
    exact (hx₁ x hx hxn).2
  | some m => ?_
  obtain ⟨hm, hmn, hmt⟩ := hnext m hsucc
  have hat₁ := hn₁.1.trans hsucc
  rw [if_pos (page_ne_zero hat₁), (entry_eq_some.mp hat₁).1]
  -- The one behind `n`.
  have hre' := @copy_prev_relinks mem₁ _ _ (hfl.apart m n hm hn hmn)
  rw [hn₁.2, hprev] at hre'
  rw [hsucc] at hx₁
  refine ⟨?_, ?_⟩
  · intro x hx hxn
    have hback := hre'.back (hfl.apart m x hm hx)
    rw [(hx₁ x hx hxn).1, (hx₁ x hx hxn).2] at hback
    exact hback
  intro page w hall
  rw [hre'.frame page w (hall m hm), hre.frame page w (hall t ht)]

/-- **`remove_block`** takes a block out of its list. -/
theorem remove_block_spec (hfl : FreeLists s.pool s.mem L) (hi : i < NUM_FREE_LISTS)
    (hn : n ∈ L i) :
    FreeLists (remove_block s n.1 n.2 n i).pool (remove_block s n.1 n.2 n i).mem
        (update L i ((L i).erase n)) ∧
      (∀ page w, (∀ x, Listed L x → ¬LinkWord x page w) →
        (remove_block s n.1 n.2 n i).mem page w = s.mem page w) := by
  have hnL : Listed L n := ⟨i, hi, hn⟩
  have hhead := hfl.head i hi
  obtain ⟨pre, post, hsplit, hnext, hprev⟩ := (hfl.linked i hi).mem_cases hn
  have hnodup := hfl.nodup i hi
  unfold remove_block
  by_cases hfirst : s.pool.freelist i = (n.1, n.2)
  · -- It is the first one.
    rw [if_pos hfirst]
    rw [hfirst, entry_eq_some.mpr ⟨rfl, (hfl.valid n hnL).1⟩] at hhead
    obtain ⟨rest, hrest⟩ : ∃ rest, L i = n :: rest := by
      cases hL : L i with
      | nil => rw [hL] at hhead; cases hhead
      | cons m rest =>
        rw [hL] at hhead
        cases hhead
        exact ⟨rest, rfl⟩
    have hspec := remove_block_head_spec hfl hi hrest
    rw [hrest, erase_cons_head]
    exact hspec
  rw [if_neg hfirst]
  have hpre : pre ≠ [] := by
    rintro rfl
    rw [hsplit] at hhead
    exact hfirst (entry_eq_some.mp hhead).1
  have ht := List.getLast?_eq_some_getLast hpre
  generalize pre.getLast hpre = t at ht
  rw [ht, some_or] at hprev
  have htpre : t ∈ pre := mem_of_getLast? ht
  have hnodup' := hnodup
  rw [hsplit] at hnodup'
  obtain ⟨_, hpost, hdisjoint⟩ := nodup_append.mp hnodup'
  have htL : Listed L t := ⟨i, hi, by rw [hsplit]; exact mem_append_left _ htpre⟩
  obtain ⟨hlinks, hframe⟩ := unlink_block_links hfl hnL hprev htL
    (hdisjoint t htpre n mem_cons_self) (by
      intro m hm
      rw [hnext] at hm
      have hmpost := mem_of_head? hm
      refine ⟨⟨i, hi, ?_⟩, ?_, ?_⟩
      · rw [hsplit]
        exact mem_append_right _ (mem_cons_of_mem n hmpost)
      · rintro rfl
        exact (nodup_cons.mp hpost).1 hmpost
      rintro rfl
      exact hdisjoint m htpre m (mem_cons_of_mem n hmpost) rfl)
  refine ⟨hfl.shrink hi erase_sublist ?_ ?_ ?_ ?_, hframe⟩
  · intro j hj
    by_cases hji : j = i
    · subst hji
      rw [update_self, hfl.head j hj]
      -- The first one stays.
      cases pre with
      | nil => exact absurd rfl hpre
      | cons k pre =>
        have hkn : k ≠ n := hdisjoint k mem_cons_self n mem_cons_self
        rw [hsplit, cons_append, erase_cons_tail (by simpa using hkn)]
        rfl
    rw [update_of_ne hji, hfl.head j hj]
  · have hstays : ∀ x ∈ (L i).erase n, Listed L x ∧ x ≠ n := by
      intro x hx
      rw [hnodup.mem_erase_iff] at hx
      exact ⟨⟨i, hi, hx.2⟩, hx.1⟩
    refine (hfl.linked i hi).remove hn hnodup (fun b hb => by cases hb) ?_ ?_
    · intro x hx
      exact (hlinks x (hstays x hx).1 (hstays x hx).2).1
    intro x hx
    exact (hlinks x (hstays x hx).1 (hstays x hx).2).2
  · intro j hj hji x hx
    have hlist : ∀ y, y ∈ L i → y ≠ x := by
      rintro y hy rfl
      exact hji (hfl.once j i y hj hi hx hy)
    have hboth := hlinks x ⟨j, hj, hx⟩ (hlist n hn).symm
    have hxt : ¬prevOf s.mem n = some x := by
      rw [hprev]
      intro h
      cases h
      exact hlist t (by rw [hsplit]; exact mem_append_left _ htpre) rfl
    have hxm : ¬nextOf s.mem n = some x := by
      rw [hnext]
      intro h
      have hxpost := mem_of_head? h
      have hxi : x ∈ L i := by
        rw [hsplit]
        exact mem_append_right _ (mem_cons_of_mem n hxpost)
      exact hlist x hxi rfl
    rw [if_neg hxt, if_neg hxm] at hboth
    exact hboth
  refine ⟨fun j => (hfl.bits.sl j).trans ?_, hfl.bits.fl⟩
  by_cases hji : j = i
  · subst hji
    have hne : (L j).erase n ≠ [] := by
      refine ne_nil_of_mem (a := t) (hnodup.mem_erase_iff.mpr ⟨?_, ?_⟩)
      · exact hdisjoint t htpre n mem_cons_self
      rw [hsplit]
      exact mem_append_left _ htpre
    rw [update_self]
    exact ⟨fun h => ⟨h.1, hne⟩, fun h => ⟨h.1, ne_nil_of_mem hn⟩⟩
  rw [update_of_ne hji]

end lists

end Nubernel.Xvmalloc
