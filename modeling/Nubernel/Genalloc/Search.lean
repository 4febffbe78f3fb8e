import Nubernel.Genalloc.Model

/-! # genalloc: looking for free granules

Where the numbers of granules are small enough for the `int` variables, the search
finds the first run of clear bits that is long enough, chunk by chunk.
-/

namespace Nubernel.Genalloc

open Bitmap List Nat

/-! ## Numbers of granules -/

/-- Bytes in granules of `u` bytes, rounded up. -/
def granules (u size : Nat) : Nat := (size + u - 1) / u

/-- The granules that fit into a chunk. -/
def Chunk.granules (c : Chunk) (u : Nat) : Nat := (c.end_addr - c.start_addr) / u

/-- A chunk of memory: not at address 0, and below the end of the address space. -/
structure Chunk.Valid (c : Chunk) : Prop where
  pos : 0 < c.start_addr
  le : c.start_addr ≤ c.end_addr
  lt : c.end_addr < 2 ^ 32

section numbers
variable {order size n : Nat} {c : Chunk}

theorem int_ge_iff {a b : Nat} (ha : a < 2 ^ 31) (hb : b < 2 ^ 31) :
    int_ge a b = true ↔ b ≤ a := by
  have hna : negative a = false := decide_eq_false (by omega)
  have hnb : negative b = false := decide_eq_false (by omega)
  unfold int_ge
  rw [hna, hnb, if_pos rfl, decide_eq_true_eq]

theorem not_negative (h : n < 2 ^ 31) : ¬negative n = true := by
  unfold negative
  rw [decide_eq_true_eq]
  omega

theorem nbits_eq (horder : order < 32) (hsize : size + 2 ^ order - 1 < 2 ^ 32) :
    nbits order size = granules (2 ^ order) size := by
  have hpos : 0 < 2 ^ order := Nat.two_pow_pos order
  have hlt : 2 ^ order < 2 ^ 32 := Nat.pow_lt_pow_right (by decide) horder
  have hsum : sub32 (add32 size (2 ^ order)) 1 = size + 2 ^ order - 1 := by
    unfold sub32 add32
    omega
  unfold nbits
  rw [hsum, shiftRight_eq_div_pow]
  rfl

theorem Chunk.Valid.end_bit (hc : c.Valid) : c.end_bit order = c.granules (2 ^ order) := by
  unfold Chunk.end_bit
  rw [sub32_eq hc.lt hc.le, shiftRight_eq_div_pow]
  rfl

/-- The rounding up takes at least one granule, and no more than needed. -/
theorem granules_bounds {u : Nat} (hu : 0 < u) (hsize : 1 ≤ size) :
    1 ≤ granules u size ∧ size ≤ granules u size * u := by
  unfold granules
  have hdiv := div_add_mod' (size + u - 1) u
  have hmod := mod_lt (size + u - 1) hu
  refine ⟨?_, by omega⟩
  rw [one_le_div_iff hu]
  omega

/-- The granules of a chunk are inside of it. -/
theorem Chunk.Valid.granules_le (hc : c.Valid) (u : Nat) :
    c.start_addr + c.granules u * u ≤ c.end_addr := by
  have hmul : c.granules u * u ≤ c.end_addr - c.start_addr := div_mul_le_self _ u
  have hle := hc.le
  omega

end numbers

/-! ## One bitmap -/

section area
variable {map : Nat → Bool} {size nr start fuel : Nat}

/-- Rounding up gives the first multiple from `x` on. -/
theorem ALIGN_MASK_spec {x k : Nat} (hk : 0 < 2 ^ k) (h : x + (2 ^ k - 1) < 2 ^ 32) :
    x ≤ ALIGN_MASK x (2 ^ k - 1) ∧ ALIGN_MASK x (2 ^ k - 1) ≤ x + (2 ^ k - 1) ∧
      2 ^ k ∣ ALIGN_MASK x (2 ^ k - 1) ∧ ∀ a, x ≤ a → 2 ^ k ∣ a → ALIGN_MASK x (2 ^ k - 1) ≤ a := by
  have hle : k ≤ 32 := (Nat.pow_le_pow_iff_right (by decide)).mp (show 2 ^ k ≤ 2 ^ 32 by omega)
  unfold ALIGN_MASK
  rw [add32_eq h, show 2 ^ 32 - 1 - (2 ^ k - 1) = 2 ^ 32 - 2 ^ k by omega, and_align_mask hle h]
  have hdiv := div_add_mod' (x + (2 ^ k - 1)) (2 ^ k)
  refine ⟨by omega, by omega, dvd_mul_left _ _, ?_⟩
  rintro a ha ⟨m, rfl⟩
  rw [mul_comm (2 ^ k)] at ha ⊢
  exact Nat.mul_le_mul_right _ (Nat.le_of_lt_succ (Nat.div_lt_of_lt_mul (by rw [Nat.mul_comm, Nat.succ_mul]; omega)))

/-- An aligned clear run of the map. -/
structure Fits (map : Nat → Bool) (size nr k start a : Nat) : Prop where
  start_le : start ≤ a
  le_size : a + nr ≤ size
  aligned : 2 ^ k ∣ a
  clear : Clear map a nr

/-- **`bitmap_find_next_zero_area`**: the first aligned run from `start` on, or a number above
the size when there is none. -/
theorem find_aligned_area {k : Nat} (hnr : 0 < nr) (hsum : size + (2 ^ k - 1) + nr < 2 ^ 32)
    (hstart : start ≤ size) (hfuel : size + 1 < fuel + start) :
    ∃ found, bitmap_find_next_zero_area map size nr (2 ^ k - 1) fuel start = some found ∧
      (Fits map size nr k start found ∧ (∀ a, Fits map size nr k start a → found ≤ a) ∨
        size < found ∧ found ≤ size + (2 ^ k - 1) + nr ∧ ∀ a, ¬Fits map size nr k start a) := by
  induction fuel generalizing start with
  | zero => omega
  | succ fuel ih => ?_
  have hz : First (fun k => !map k) start size (find_next_zero_bit map size start) :=
    findNext_first hstart
  have hlower := hz.lower
  have hupper := hz.upper
  obtain ⟨hge, hle, hdvd, hleast⟩ := ALIGN_MASK_spec (Nat.two_pow_pos k)
    (show find_next_zero_bit map size start + (2 ^ k - 1) < 2 ^ 32 by omega)
  rw [bitmap_find_next_zero_area]
  generalize ALIGN_MASK (find_next_zero_bit map size start) (2 ^ k - 1) = index at hge hle hdvd hleast
  -- A clear run begins with a clear bit, so not before `index`.
  have hbegin : ∀ a, Fits map size nr k start a → index ≤ a := fun a ha =>
    hleast a (hz.le_of_mem ha.start_le (by rw [ha.clear a (le_refl a) (by omega)]; rfl)) ha.aligned
  rw [add32_eq (by omega)]
  by_cases hover : index + nr > size
  · rw [if_pos hover]
    refine ⟨_, rfl, .inr ⟨hover, by omega, ?_⟩⟩
    intro a ha
    have hle := hbegin a ha
    have hfit := ha.le_size
    omega
  rw [if_neg hover]
  have hi : First map index (index + nr) (find_next_bit map (index + nr) index) :=
    findNext_first (by omega)
  have hrun := hi.clear_run
  have hi_lower := hi.lower
  generalize find_next_bit map (index + nr) index = i at hi hrun hi_lower
  by_cases hset : i < index + nr
  · rw [if_pos hset] at hrun ⊢
    have hskip : ∀ a, Fits map size nr k start a → Fits map size nr k (i + 1) a := fun a ha =>
      ⟨hrun a (hbegin a ha) ha.clear, ha.le_size, ha.aligned, ha.clear⟩
    obtain ⟨found, heq, ⟨hfits, hfirst⟩ | ⟨hgt, hle, hnone⟩⟩ := @ih (i + 1) (by omega) (by omega)
    · refine ⟨found, heq, .inl ⟨⟨?_, hfits.le_size, hfits.aligned, hfits.clear⟩, ?_⟩⟩
      · exact le_trans (by omega) hfits.start_le
      · exact fun a ha => hfirst a (hskip a ha)
    exact ⟨found, heq, .inr ⟨hgt, hle, fun a ha => hnone a (hskip a ha)⟩⟩
  rw [if_neg hset] at hrun ⊢
  exact ⟨index, rfl, .inl ⟨⟨by omega, by omega, hdvd, hrun⟩, hbegin⟩⟩

/-- What the search returns: the first clear run that is long enough, or a number above
the size. -/
def Area (map : Nat → Bool) (size nr start found : Nat) : Prop :=
  (start ≤ found ∧ found + nr ≤ size ∧ Clear map found nr) ∨
    (size < found ∧ found ≤ size + nr ∧ ∀ a, start ≤ a → a + nr ≤ size → ¬Clear map a nr)

theorem find_area_spec (hnr : 0 < nr) (hsum : size + nr < 2 ^ 31) (hstart : start ≤ size)
    (hfuel : size + 1 < fuel + start) :
    ∃ found, bitmap_find_next_zero_area map size nr 0 fuel start = some found ∧
      Area map size nr start found := by
  obtain ⟨found, heq, ⟨hfits, _⟩ | ⟨hgt, hle, hnone⟩⟩ := @find_aligned_area map size nr start fuel 0
    hnr (by omega) hstart hfuel
  · exact ⟨found, heq, .inl ⟨hfits.start_le, hfits.le_size, hfits.clear⟩⟩
  · exact ⟨found, heq, .inr ⟨hgt, hle, fun a ha hfit hclear => hnone a ⟨ha, hfit, one_dvd a, hclear⟩⟩⟩

end area

/-! ## The chunks of a pool -/

section chunks
variable {order n : Nat} {cs : List Chunk}

/-- A chunk with some of its bits changed. -/
def Chunk.filled (c : Chunk) (a n : Nat) (v : Bool) : Chunk := { c with bits := fill c.bits a n v }

/-- What becomes of the chunks in an allocation of `n` granules: the first run that is
long enough is taken, or there is none. -/
def Allocated (u n : Nat) (cs : List Chunk) (addr : Nat) (cs' : List Chunk) : Prop :=
  (∃ pre c post a, cs = pre ++ c :: post ∧ cs' = pre ++ c.filled a n true :: post ∧
    a + n ≤ c.granules u ∧ Clear c.bits a n ∧ addr = c.start_addr + a * u) ∨
  (addr = 0 ∧ cs' = cs ∧ ∀ c ∈ cs, ∀ a, a + n ≤ c.granules u → ¬Clear c.bits a n)

theorem alloc_chunks_spec (hn : 0 < n) (hvalid : ∀ c ∈ cs, c.Valid)
    (hsmall : ∀ c ∈ cs, n + c.granules (2 ^ order) < 2 ^ 31) :
    ∃ addr cs', alloc_chunks order n cs = some (addr, cs') ∧
      Allocated (2 ^ order) n cs addr cs' := by
  induction cs with
  | nil => exact ⟨0, [], rfl, .inr ⟨rfl, rfl, by simp⟩⟩
  | cons c cs ih => ?_
  have hc := hvalid c mem_cons_self
  have hsum := hsmall c mem_cons_self
  obtain ⟨found, heq, harea⟩ := @find_area_spec c.bits (c.granules (2 ^ order)) n 0
    (c.granules (2 ^ order) + 2) hn (by omega) (zero_le _) (by omega)
  have hzero : c.zero_area order n = some found := by
    unfold Chunk.zero_area
    rw [hc.end_bit]
    exact heq
  have hfound : found < 2 ^ 31 := by
    rcases harea with ⟨_, hfit, _⟩ | ⟨_, hle, _⟩ <;> omega
  have hge : int_ge found (c.end_bit order) = true ↔ c.granules (2 ^ order) ≤ found := by
    rw [hc.end_bit]
    exact int_ge_iff hfound (by omega)
  rw [alloc_chunks, hzero]
  simp only
  rcases harea with ⟨_, hfit, hclear⟩ | ⟨hgt, _, hnone⟩
  · have haddr : add32 c.start_addr (found <<< order) = c.start_addr + found * 2 ^ order := by
      have hle := hc.granules_le (2 ^ order)
      have hmul := mul_le_mul_right (2 ^ order) (show found ≤ c.granules (2 ^ order) by omega)
      have hlt := hc.lt
      rw [shiftLeft_eq, add32_eq (by omega)]
    have htake : c.take order n found =
        some (c.start_addr + found * 2 ^ order, c.filled found n true) := by
      unfold Chunk.take bitmap_set
      rw [if_neg, Option.map_some, haddr]
      · rfl
      rintro (h | h)
      · exact not_negative hfound h
      · exact not_negative (by omega) h
    rw [if_neg (fun h => by have := hge.mp h; omega), htake]
    exact ⟨_, _, rfl, .inl ⟨[], c, cs, found, rfl, rfl, hfit, hclear, rfl⟩⟩
  obtain ⟨addr, cs', heq', halloc⟩ := ih (fun d hd => hvalid d (mem_cons_of_mem c hd))
    (fun d hd => hsmall d (mem_cons_of_mem c hd))
  rw [if_pos (hge.mpr (by omega)), heq']
  refine ⟨addr, c :: cs', rfl, ?_⟩
  rcases halloc with ⟨pre, d, post, a, rfl, rfl, hrest⟩ | ⟨haddr, rfl, hnone'⟩
  · exact .inl ⟨c :: pre, d, post, a, rfl, rfl, hrest⟩
  refine .inr ⟨haddr, rfl, ?_⟩
  intro d hd a hfit
  rcases mem_cons.mp hd with rfl | hd
  · exact hnone a (zero_le a) hfit
  · exact hnone' d hd a hfit

/-- **The loop of `gen_pool_free`**, for a block of `n` granules from `a` on. -/
theorem free_chunks_spec {pre post : List Chunk} {c : Chunk} {a size addr : Nat}
    (hc : c.Valid) (hpre : ∀ d ∈ pre, addr < d.start_addr ∨ d.end_addr ≤ addr)
    (hfit : a + n ≤ c.granules (2 ^ order)) (hn : 0 < n) (hsmall : c.granules (2 ^ order) < 2 ^ 31)
    (hsize : size ≤ n * 2 ^ order) (haddr : addr = c.start_addr + a * 2 ^ order) :
    free_chunks order addr size n (pre ++ c :: post) =
      some (pre ++ c.filled a n false :: post) := by
  have hpos : 0 < 2 ^ order := Nat.two_pow_pos order
  have hle := hc.granules_le (2 ^ order)
  have hlt := hc.lt
  have hmul := mul_le_mul_right (2 ^ order) hfit
  rw [add_mul] at hmul
  have hunit := mul_le_mul_right (2 ^ order) hn
  induction pre with
  | nil =>
    have hbit : sub32 addr c.start_addr >>> order = a := by
      rw [sub32_eq (by omega) (by omega), Nat.shiftRight_eq_div_pow,
        show addr - c.start_addr = a * 2 ^ order by omega, Nat.mul_div_cancel _ hpos]
    rw [nil_append, free_chunks, if_pos ⟨by omega, by omega⟩, add32_eq (by omega), if_neg]
    · simp only [hbit]
      rfl
    rintro (h | h)
    · omega
    · exact not_negative (by omega) h
  | cons d pre ih => ?_
  have hd := hpre d mem_cons_self
  rw [cons_append, free_chunks, if_neg (by omega), ih fun e he => hpre e (mem_cons_of_mem d he)]
  rfl

end chunks

end Nubernel.Genalloc
