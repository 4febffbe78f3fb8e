import Nubernel.Pmem.Model

/-! # pmem: the bitmap describes a tiling of the space

`Tiling bitmap n bs` says that `bs` are the blocks of a device: they
tile `[0, n)`, the bitmap has the order and the state of a block at its
first page, and no other page is marked allocated. Nothing is said of
the orders recorded at other pages.

`pmem_allocate` splits and marks one block, `pmem_free` clears and
merges. During both loops all pairs of free buddies are merged, except
for those with the block at work (`MergedBut`).
-/

namespace Nubernel.Pmem

open Buddy LTS List Nat

/-! ## The blocks behind a bitmap -/

structure Tiling (bitmap : Nat → PmemBits) (n : Nat) (bs : List (Block Bool)) : Prop where
  tiles : Tiles 0 bs n
  bits : ∀ b ∈ bs, bitmap b.index = ⟨b.tag, b.order⟩
  heads : ∀ i, (bitmap i).allocated = true → ∃ b ∈ bs, b.index = i

/-- Two free blocks that `pmem_free` would merge. -/
def Unmerged (x y : Block Bool) : Prop :=
  x.tag = false ∧ y.tag = false ∧ y.order = x.order ∧ y.index = buddy x.index x.order

/-- No two free buddies are unmerged. -/
def Merged (bs : List (Block Bool)) : Prop :=
  ∀ x ∈ bs, ∀ y ∈ bs, ¬ Unmerged x y

/-- No two free buddies are unmerged, other than with the block at `c`. -/
def MergedBut (c : Nat) (bs : List (Block Bool)) : Prop :=
  ∀ x ∈ bs, ∀ y ∈ bs, Unmerged x y → x.index = c ∨ y.index = c

/-- The allocated blocks of two lists are the same. -/
def SameAllocated (bs bs' : List (Block Bool)) : Prop :=
  ∀ b : Block Bool, b.tag = true → (b ∈ bs' ↔ b ∈ bs)

theorem Unmerged.symm {x y : Block Bool} (h : Unmerged x y) : Unmerged y x := by
  obtain ⟨hx, hy, ho, hi⟩ := h
  exact ⟨hy, hx, ho.symm, by rw [ho, hi, buddy_buddy]⟩

variable {bs : List (Block Bool)}

theorem Merged.but (h : Merged bs) (c : Nat) : MergedBut c bs := by
  intro x hx y hy hxy
  exact absurd hxy (h x hx y hy)

variable {o : Nat}

section tiling
variable {bitmap bitmap' : Nat → PmemBits} {n : Nat} {bs pre post : List (Block Bool)}
  {x y : Block Bool}

theorem Tiling.order_lt {k : Nat} (h : Tiling bitmap n bs) (hx : x ∈ bs) (hn : n < 2 ^ k) :
    x.order < k := by
  have hstop := (h.tiles.mem hx).2.1
  unfold Block.stop at hstop
  exact (Nat.pow_lt_pow_iff_right (a := 2) (by omega)).mp (by omega)

theorem Tiling.index_lt (h : Tiling bitmap n bs) (hx : x ∈ bs) : x.index < n := by
  have hpos := Nat.two_pow_pos x.order
  have hstop := (h.tiles.mem hx).2.1
  unfold Block.stop at hstop
  omega

/-- Blocks are replaced in the middle of the list; the entries of the others
stay. -/
theorem Tiling.replace (mid mid' : List (Block Bool)) (h : Tiling bitmap n (pre ++ (mid ++ post)))
    (ht : Tiles 0 (pre ++ (mid' ++ post)) n)
    (hframe : ∀ b ∈ pre ++ post, bitmap' b.index = bitmap b.index)
    (hbits : ∀ b ∈ mid', bitmap' b.index = ⟨b.tag, b.order⟩)
    (hheads : ∀ i, (bitmap' i).allocated = true →
      (∃ b ∈ mid', b.index = i) ∨ ((bitmap i).allocated = true ∧ ∀ b ∈ mid, b.index ≠ i)) :
    Tiling bitmap' n (pre ++ (mid' ++ post)) := by
  constructor
  · exact ht
  · intro b hb
    simp only [mem_append] at hb
    rcases hb with hb | hb | hb
    · rw [hframe b (by simp [hb])]
      exact h.bits b (by simp [hb])
    · exact hbits b hb
    rw [hframe b (by simp [hb])]
    exact h.bits b (by simp [hb])
  intro i hi
  -- A bit that is set belongs to a new block, or to one that was not replaced.
  rcases hheads i hi with ⟨b, hb, hbi⟩ | ⟨hold, hmid⟩
  · exact ⟨b, by simp [hb], hbi⟩
  obtain ⟨b, hb, hbi⟩ := h.heads i hold
  simp only [mem_append] at hb
  rcases hb with hb | hb | hb
  · exact ⟨b, by simp [hb], hbi⟩
  · exact absurd hbi (hmid b hb)
  · exact ⟨b, by simp [hb], hbi⟩

/-- Marking a block allocated or free. -/
theorem Tiling.retag (h : Tiling bitmap n (pre ++ x :: post)) (tag : Bool)
    (hx : bitmap' x.index = ⟨tag, x.order⟩) (hother : ∀ i, i ≠ x.index → bitmap' i = bitmap i) :
    Tiling bitmap' n (pre ++ { x with tag := tag } :: post) := by
  have hpos := Nat.two_pow_pos x.order
  apply Tiling.replace [x] [{ x with tag := tag }] h (h.tiles.retag tag)
  · intro b hb
    have := h.tiles.outside hb
    unfold Block.stop at this
    exact hother _ (by omega)
  · intro b hb
    rw [mem_singleton.mp hb]
    exact hx
  intro i hi
  by_cases heq : i = x.index
  · left
    exact ⟨_, mem_singleton_self _, heq.symm⟩
  right
  rw [hother i heq] at hi
  exact ⟨hi, by simpa using Ne.symm heq⟩

theorem Tiling.split (h : Tiling bitmap n (pre ++ x :: post)) (ho : x.order = o + 1)
    (hlow : bitmap' x.index = ⟨false, o⟩) (hhigh : bitmap' (x.index + 2 ^ o) = ⟨false, o⟩)
    (hother : ∀ i, i ≠ x.index → i ≠ x.index + 2 ^ o → bitmap' i = bitmap i) :
    Tiling bitmap' n (pre ++ ⟨x.index, o, false⟩ :: ⟨x.index + 2 ^ o, o, false⟩ :: post) := by
  have hpos := Nat.two_pow_pos o
  apply Tiling.replace [x] [⟨x.index, o, false⟩, ⟨x.index + 2 ^ o, o, false⟩] h
    (h.tiles.split ho false false)
  · intro b hb
    have := h.tiles.outside hb
    unfold Block.stop at this
    rw [ho, pow_succ] at this
    exact hother _ (by omega) (by omega)
  · intro b hb
    rcases mem_pair.mp hb with rfl | rfl
    · exact hlow
    · exact hhigh
  intro i hi
  by_cases hl : i = x.index
  · rw [hl, hlow] at hi
    cases hi
  by_cases hr : i = x.index + 2 ^ o
  · rw [hr, hhigh] at hi
    cases hi
  right
  rw [hother i hl hr] at hi
  exact ⟨hi, by simpa using Ne.symm hl⟩

theorem Tiling.merge (h : Tiling bitmap n (pre ++ x :: y :: post)) (ho : y.order = x.order)
    (hd : 2 ^ (x.order + 1) ∣ x.index) (hy : y.index = x.index + 2 ^ x.order)
    (hlow : bitmap' x.index = ⟨false, x.order + 1⟩) (hhigh : (bitmap' y.index).allocated = false)
    (hother : ∀ i, i ≠ x.index → i ≠ y.index → bitmap' i = bitmap i) :
    Tiling bitmap' n (pre ++ ⟨x.index, x.order + 1, false⟩ :: post) := by
  have hmerged := h.tiles.merge ho hd false
  apply Tiling.replace [x, y] [⟨x.index, x.order + 1, false⟩] h hmerged
  · intro b hb
    have := hmerged.outside hb
    simp only [Block.stop] at this
    exact hother _ (by omega) (by omega)
  · intro b hb
    rw [mem_singleton.mp hb]
    exact hlow
  intro i hi
  by_cases hl : i = x.index
  · rw [hl, hlow] at hi
    cases hi
  by_cases hr : i = y.index
  · rw [hr, hhigh] at hi
    cases hi
  right
  rw [hother i hl hr] at hi
  refine ⟨hi, ?_⟩
  intro b hb
  rcases mem_pair.mp hb with rfl | rfl
  · exact Ne.symm hl
  · exact Ne.symm hr

theorem MergedBut.retag (h : MergedBut x.index (pre ++ x :: post)) (tag : Bool) :
    MergedBut x.index (pre ++ { x with tag := tag } :: post) := by
  intro u hu v hv huv
  rcases mem_cons.mp (perm_middle.mem_iff.mp hu) with rfl | hu
  · exact .inl rfl
  rcases mem_cons.mp (perm_middle.mem_iff.mp hv) with rfl | hv
  · exact .inr rfl
  exact h u (perm_middle.mem_iff.mpr (mem_cons_of_mem _ hu))
    v (perm_middle.mem_iff.mpr (mem_cons_of_mem _ hv)) huv

/-- Splitting leaves only the two halves unmerged. -/
theorem MergedBut.split (h : MergedBut x.index (pre ++ x :: post)) (hd : 2 ^ (o + 1) ∣ x.index) :
    MergedBut x.index (pre ++ ⟨x.index, o, false⟩ :: ⟨x.index + 2 ^ o, o, false⟩ :: post) := by
  have hbuddy : buddy (x.index + 2 ^ o) o = x.index := by
    rw [← buddy_of_dvd hd, buddy_buddy]
  -- The only buddy of the upper half is the lower one, which is at work.
  have hhigh : ∀ u, Unmerged ⟨x.index + 2 ^ o, o, false⟩ u → u.index = x.index := by
    intro u hu
    rw [hu.2.2.2]
    exact hbuddy
  have hcases : ∀ w ∈ pre ++ ⟨x.index, o, false⟩ :: ⟨x.index + 2 ^ o, o, false⟩ :: post,
      w = ⟨x.index, o, false⟩ ∨ w = ⟨x.index + 2 ^ o, o, false⟩ ∨ w ∈ pre ++ x :: post := by
    simp only [mem_append, mem_cons]
    tauto
  intro u hu v hv huv
  rcases hcases u hu with rfl | rfl | hu
  · exact .inl rfl
  · exact .inr (hhigh v huv)
  rcases hcases v hv with rfl | rfl | hv
  · exact .inr rfl
  · exact .inl (hhigh u huv.symm)
  · exact h u hu v hv huv

/-- Of a list without the block at work nothing is unmerged, so after a
merge only the new block can be. -/
theorem MergedBut.merge {c : Nat} {z : Block Bool} (h : MergedBut c (pre ++ x :: y :: post))
    (hc : c = x.index ∨ c = y.index) (ht : Tiles 0 (pre ++ x :: y :: post) n) :
    MergedBut z.index (pre ++ z :: post) := by
  have hrest : ∀ w ∈ pre ++ post, w ∈ pre ++ y :: post := by
    intro w hw
    exact perm_middle.mem_iff.mpr (mem_cons_of_mem _ hw)
  have hmem : ∀ w ∈ pre ++ post, w ∈ pre ++ x :: y :: post := by
    intro w hw
    exact perm_middle.mem_iff.mpr (mem_cons_of_mem _ (hrest w hw))
  -- The block at work was one of the two, and the others do not overlap it.
  have hne : ∀ u ∈ pre ++ post, u.index ≠ c := by
    intro u hu hcu
    have hx := ht.outside (y := u) (hrest u hu)
    have ht' : Tiles 0 ((pre ++ [x]) ++ y :: post) n := by simpa using ht
    have hfront : u ∈ (pre ++ [x]) ++ post := by
      rw [append_assoc]
      exact perm_middle.mem_iff.mpr (mem_cons_of_mem _ hu)
    have hy := ht'.outside (y := u) hfront
    have hpx := Nat.two_pow_pos x.order
    have hpy := Nat.two_pow_pos y.order
    unfold Block.stop at hx hy
    rcases hc with hc | hc
    · omega
    · omega
  intro u hu v hv huv
  rcases mem_cons.mp (perm_middle.mem_iff.mp hu) with rfl | hu
  · exact .inl rfl
  rcases mem_cons.mp (perm_middle.mem_iff.mp hv) with rfl | hv
  · exact .inr rfl
  rcases h u (hmem u hu) v (hmem v hv) huv with heq | heq
  · exact absurd heq (hne u hu)
  · exact absurd heq (hne v hv)

/-- When the block at work has no free buddy of its size, none has. -/
theorem MergedBut.merged (h : MergedBut x.index bs) (hx : x ∈ bs) (ht : Tiles 0 bs n)
    (hno : ∀ y ∈ bs, ¬ Unmerged x y) : Merged bs := by
  intro u hu v hv huv
  rcases h u hu v hv huv with heq | heq
  · rw [ht.eq_of_index hu hx heq] at huv
    exact hno v hv huv
  rw [ht.eq_of_index hv hx heq] at huv
  exact hno u hu huv.symm

/-- A page inside a block is not marked allocated. -/
theorem Tiling.inner (h : Tiling bitmap n bs) (hx : x ∈ bs) {i : Nat}
    (hi : x.index < i ∧ i < x.stop) : (bitmap i).allocated = false := by
  by_contra halloc
  obtain ⟨b, hb, hbi⟩ := h.heads i (by simpa using halloc)
  have hpos := Nat.two_pow_pos b.order
  have heq := h.tiles.eq_of_mem hx hb (i := i) ⟨by omega, hi.2⟩
    ⟨by omega, by unfold Block.stop; omega⟩
  rw [heq] at hi
  omega

end tiling

/-! ## Splitting -/

theorem SameAllocated.refl (bs : List (Block Bool)) : SameAllocated bs bs :=
  fun _ _ => Iff.rfl

theorem SameAllocated.trans {bs' bs'' : List (Block Bool)} (h : SameAllocated bs bs')
    (h' : SameAllocated bs' bs'') : SameAllocated bs bs'' :=
  fun b hb => (h' b hb).trans (h b hb)

/-- Replacing free blocks by free blocks. -/
theorem SameAllocated.replace (pre mid mid' post : List (Block Bool))
    (hmid : ∀ b ∈ mid, b.tag = false) (hmid' : ∀ b ∈ mid', b.tag = false) :
    SameAllocated (pre ++ (mid ++ post)) (pre ++ (mid' ++ post)) := by
  intro b hb
  have h1 : b ∉ mid := fun h => by simp [hmid b h] at hb
  have h2 : b ∉ mid' := fun h => by simp [hmid' b h] at hb
  simp [h1, h2]

section ops
variable {p : PmemInfo} {pre post : List (Block Bool)} {x y : Block Bool}

section
variable (hb : p.bitmap y.index = ⟨y.tag, y.order⟩)
include hb

theorem is_free_of_entry (hlt : y.index < p.num_entries) : PMEM_IS_FREE p y.index = !y.tag := by
  unfold PMEM_IS_FREE
  rw [hb]
  simp only [Bool.and_eq_right_iff_imp, decide_eq_true_eq]
  omega

theorem order_of_entry : PMEM_ORDER p y.index = y.order := by
  unfold PMEM_ORDER
  rw [hb]

theorem next_of_entry : PMEM_NEXT_INDEX p y.index = y.stop := by
  unfold PMEM_NEXT_INDEX Block.stop
  rw [order_of_entry hb, one_shiftLeft]

end

/-- The buddy that the splitting loop writes is the upper half. -/
theorem split_buddy (h : Tiling p.bitmap p.num_entries bs) (hn : p.num_entries < 2 ^ 32)
    (hx : x ∈ bs) (ho : x.order = o + 1) :
    let p₁ := set_order p x.index (PMEM_ORDER p x.index - 1)
    PMEM_ORDER p₁ x.index = o ∧ PMEM_BUDDY_INDEX p₁ x.index = x.index + 2 ^ o := by
  intro p₁
  have hd := (h.tiles.mem hx).2.2
  rw [ho] at hd
  -- The order fits into its 7 bits.
  have hlt := h.order_lt hx hn
  have horder : PMEM_ORDER p₁ x.index = o := by
    simp only [p₁, PMEM_ORDER, set_order, set_bits, h.bits x hx, ho, if_true]
    omega
  refine ⟨horder, ?_⟩
  unfold PMEM_BUDDY_INDEX
  rw [horder]
  exact buddy_of_dvd hd

theorem split_round (h : Tiling p.bitmap p.num_entries (pre ++ x :: post))
    (hn : p.num_entries < 2 ^ 32) (hfree : x.tag = false) (ho : x.order = o + 1) :
    let p₁ := set_order p x.index (PMEM_ORDER p x.index - 1)
    let p₂ := set_order p₁ (PMEM_BUDDY_INDEX p₁ x.index) (PMEM_ORDER p₁ x.index)
    Tiling p₂.bitmap p.num_entries
      (pre ++ ⟨x.index, o, false⟩ :: ⟨x.index + 2 ^ o, o, false⟩ :: post) := by
  have hx : x ∈ pre ++ x :: post := by simp
  have hbits := h.bits x hx
  have hlt := h.order_lt hx hn
  have hpow : 2 ^ x.order = 2 ^ o + 2 ^ o := by rw [ho, pow_succ]; omega
  have hpos := Nat.two_pow_pos o
  -- The entry of the upper half still has what was written there before, but not the bit.
  have hinner : (p.bitmap (x.index + 2 ^ o)).allocated = false :=
    h.inner hx ⟨by omega, by unfold Block.stop; omega⟩
  intro p₁ p₂
  obtain ⟨horder, hbuddy⟩ := split_buddy h hn hx ho
  have hbits₂ : ∀ i, p₂.bitmap i = if i = x.index ∨ i = x.index + 2 ^ o then ⟨false, o⟩
      else p.bitmap i := by
    intro i
    show (set_order p₁ (PMEM_BUDDY_INDEX p₁ x.index) (PMEM_ORDER p₁ x.index)).bitmap i = _
    rw [hbuddy, horder]
    have hlt7 : o < 128 := by omega
    by_cases hi : i = x.index + 2 ^ o
    · simp [hi, p₁, set_order, set_bits, hinner, hlt7]
    by_cases hi' : i = x.index
    · simp [hi', p₁, set_order, set_bits, PMEM_ORDER, hbits, ho, hlt7, hfree]
    · simp [hi, hi', p₁, set_order, set_bits]
  apply h.split ho
  · rw [hbits₂]
    simp
  · rw [hbits₂]
    simp
  intro i hl hr
  rw [hbits₂]
  simp [hl, hr]

/-- The splitting loop ends with a free block of the order asked for, and stays in the
bitmap. -/
theorem pmem_split_spec (order fuel : Nat)
    (h : Tiling p.bitmap p.num_entries (pre ++ x :: post)) (hn : p.num_entries < 2 ^ 32)
    (hfree : x.tag = false) (hle : order ≤ x.order) (hfuel : x.order ≤ order + fuel)
    (hm : MergedBut x.index (pre ++ x :: post)) :
    ∃ bitmap' post', pmem_split order x.index fuel p = { p with bitmap := bitmap' } ∧
      Tiling bitmap' p.num_entries (pre ++ ⟨x.index, order, false⟩ :: post') ∧
      MergedBut x.index (pre ++ ⟨x.index, order, false⟩ :: post') ∧
      SameAllocated (pre ++ x :: post) (pre ++ ⟨x.index, order, false⟩ :: post') ∧
      ∀ i ∈ split_entries order x.index fuel p, i < p.num_entries := by
  have hxmem : x ∈ pre ++ x :: post := by simp
  have hxlt := h.index_lt hxmem
  induction fuel generalizing p x post with
  | zero =>
    have hx : (⟨x.index, order, false⟩ : Block Bool) = x := by
      rw [show order = x.order by omega, ← hfree]
    rw [hx]
    exact ⟨p.bitmap, post, rfl, h, hm, SameAllocated.refl _, forall_mem_singleton.mpr hxlt⟩
  | succ fuel ih => ?_
  have horder := order_of_entry (h.bits x hxmem)
  unfold pmem_split split_entries
  by_cases hgt : x.order > order
  · rw [if_pos (by rw [horder]; exact hgt), if_pos (by rw [horder]; exact hgt)]
    obtain ⟨o, ho⟩ : ∃ o, x.order = o + 1 := ⟨x.order - 1, by omega⟩
    have hround := split_round h hn hfree ho
    have hmerged := hm.split (ho ▸ (h.tiles.mem hxmem).2.2)
    have hsame : SameAllocated (pre ++ x :: post)
        (pre ++ ⟨x.index, o, false⟩ :: ⟨x.index + 2 ^ o, o, false⟩ :: post) :=
      SameAllocated.replace pre [x] [⟨x.index, o, false⟩, ⟨x.index + 2 ^ o, o, false⟩] post
        (by simpa using hfree) (by simp)
    obtain ⟨bitmap', post', heq, htiling, hmerged', hsame', hin⟩ :=
      ih (x := ⟨x.index, o, false⟩) hround hn rfl (by show order ≤ o; omega)
        (by show o ≤ order + fuel; omega) hmerged (by simp) hxlt
    refine ⟨bitmap', post', heq, htiling, hmerged', hsame.trans hsame', ?_⟩
    rw [forall_mem_cons, forall_mem_cons]
    refine ⟨hxlt, ?_, hin⟩
    rw [(split_buddy h hn hxmem ho).2]
    exact hround.index_lt (x := ⟨x.index + 2 ^ o, o, false⟩) (by simp)
  rw [if_neg (by rw [horder]; exact hgt), if_neg (by rw [horder]; exact hgt)]
  have hx : (⟨x.index, order, false⟩ : Block Bool) = x := by
    rw [show order = x.order by omega, ← hfree]
  rw [hx]
  exact ⟨p.bitmap, post, rfl, h, hm, SameAllocated.refl _, forall_mem_singleton.mpr hxlt⟩

/-! ## Merging -/

section
variable {bs : List (Block Bool)}

/-- One round of the merging loop: `x` and `y` become one block. -/
theorem merge_round {c b : Nat} (h : Tiling p.bitmap p.num_entries (pre ++ x :: y :: post))
    (hn : p.num_entries < 2 ^ 32) (hx : x.tag = false ∧ x.order = o)
    (hy : y.tag = false ∧ y.order = o) (hd : 2 ^ (o + 1) ∣ x.index)
    (hxy : y.index = x.index + 2 ^ o)
    (hcb : (c = x.index ∧ b = y.index) ∨ (c = y.index ∧ b = x.index)) :
    let p₁ := set_order p b (PMEM_ORDER p b + 1)
    let p₂ := set_order p₁ c (PMEM_ORDER p₁ c + 1)
    Tiling p₂.bitmap p.num_entries (pre ++ ⟨x.index, o + 1, false⟩ :: post) := by
  have hbx := h.bits x (by simp)
  have hby := h.bits y (by simp)
  have hlt := h.order_lt (x := x) (by simp) hn
  have hlt7 : o + 1 < 128 := by omega
  have hne : y.index ≠ x.index := by omega
  intro p₁ p₂
  have hbits₂ : ∀ i, p₂.bitmap i = if i = x.index ∨ i = y.index then ⟨false, o + 1⟩
      else p.bitmap i := by
    intro i
    -- The two are written in one order or the other.
    rcases hcb with ⟨rfl, rfl⟩ | ⟨rfl, rfl⟩
    all_goals
      by_cases hi : i = x.index
      · simp [hi, p₂, p₁, set_order, set_bits, PMEM_ORDER, hbx, hx, hlt7, Ne.symm hne]
      by_cases hi' : i = y.index
      · simp [hi', p₂, p₁, set_order, set_bits, PMEM_ORDER, hby, hy, hlt7, hne]
      · simp [hi, hi', p₂, p₁, set_order, set_bits]
  rw [← hx.2] at hd hxy
  have hmerge : Tiling p₂.bitmap p.num_entries (pre ++ ⟨x.index, x.order + 1, false⟩ :: post) := by
    apply h.merge (by rw [hx.2, hy.2]) hd hxy
    · rw [hbits₂, hx.2]
      simp
    · rw [hbits₂]
      simp
    intro i hl hr
    rw [hbits₂]
    simp [hl, hr]
  rw [hx.2] at hmerge
  exact hmerge

/-- A block and its free buddy stand next to each other. -/
theorem buddies_adjacent {n : Nat} (h : Tiles 0 bs n) (hx : x ∈ bs) (hy : y ∈ bs)
    (hox : x.order = o) (hoy : y.order = o) (hxy : y.index = buddy x.index o) :
    ∃ pre lo hi post, bs = pre ++ lo :: hi :: post ∧ 2 ^ (o + 1) ∣ lo.index ∧
      hi.index = lo.index + 2 ^ o ∧ min y.index x.index = lo.index ∧
      ((x = lo ∧ y = hi) ∨ (x = hi ∧ y = lo)) := by
  have hd := (h.mem hx).2.2
  rw [hox] at hd
  -- The buddy is the upper half or the lower one.
  rcases buddy_cases hd with ⟨hd', heq⟩ | ⟨hd', heq⟩
  · rw [← hxy] at heq
    obtain ⟨pre, post, hbs⟩ := h.adjacent hx hy (by unfold Block.stop; rw [hox, heq])
    exact ⟨pre, x, y, post, hbs, hd', heq, by omega, .inl ⟨rfl, rfl⟩⟩
  rw [← hxy] at heq hd'
  obtain ⟨pre, post, hbs⟩ := h.adjacent hy hx (by unfold Block.stop; rw [hoy, heq])
  exact ⟨pre, y, x, post, hbs, hd', heq.symm, by omega, .inr ⟨rfl, rfl⟩⟩

/-- The merging loop ends with all free buddies merged. Of what it looks at, only the buddy
of the block that it leaves may be outside of the bitmap. -/
theorem pmem_merge_spec (fuel : Nat) (h : Tiling p.bitmap p.num_entries bs)
    (hn : p.num_entries < 2 ^ 32) (hx : x ∈ bs) (hfree : x.tag = false) (hfuel : bs.length ≤ fuel)
    (hm : MergedBut x.index bs) :
    ∃ bitmap' bs', pmem_merge fuel p x.index = { p with bitmap := bitmap' } ∧
      Tiling bitmap' p.num_entries bs' ∧ Merged bs' ∧ SameAllocated bs bs' ∧
      ∃ z ∈ bs', z.tag = false ∧ z.index ≤ x.index ∧ x.stop ≤ z.stop ∧
        ((∀ i ∈ merge_entries fuel p x.index, i < p.num_entries) ↔
          buddy z.index z.order < p.num_entries) := by
  have hxlt := h.index_lt hx
  induction fuel generalizing p x bs with
  | zero =>
    rw [length_eq_zero_iff.mp (le_zero.mp hfuel)] at hx
    cases hx
  | succ fuel ih => ?_
  have horder := order_of_entry (h.bits x hx)
  have hbuddy : PMEM_BUDDY_INDEX p x.index = buddy x.index x.order := by
    unfold PMEM_BUDDY_INDEX
    rw [horder]
  unfold pmem_merge merge_entries
  simp only [hbuddy, horder]
  by_cases hcond : PMEM_IS_FREE p (buddy x.index x.order) = true ∧
      PMEM_ORDER p (buddy x.index x.order) = x.order
  · -- the buddy is the start of a block, and of one as large
    have hlt : buddy x.index x.order < p.num_entries := by
      have := hcond.1
      unfold PMEM_IS_FREE at this
      simp only [Bool.and_eq_true, decide_eq_true_eq] at this
      exact this.1
    obtain ⟨y, hy, hyi, _⟩ := h.tiles.buddy_head hx hlt
    have hyfree : y.tag = false := by
      have := hcond.1
      rw [← hyi, is_free_of_entry (h.bits y hy) (h.index_lt hy)] at this
      simpa using this
    have hyo : y.order = x.order := by
      rw [← order_of_entry (h.bits y hy), hyi]
      exact hcond.2
    obtain ⟨pre, lo, hi, post, rfl, hd, hhi, hmin, hside⟩ :=
      buddies_adjacent h.tiles hx hy rfl hyo hyi
    have hlo : lo.tag = false ∧ lo.order = x.order := by
      rcases hside with ⟨rfl, _⟩ | ⟨_, rfl⟩
      · exact ⟨hfree, rfl⟩
      · exact ⟨hyfree, hyo⟩
    have hhi' : hi.tag = false ∧ hi.order = x.order := by
      rcases hside with ⟨_, rfl⟩ | ⟨rfl, _⟩
      · exact ⟨hyfree, hyo⟩
      · exact ⟨hfree, rfl⟩
    have hround := merge_round (c := x.index) (b := y.index) h hn hlo hhi' hd hhi (by
      rcases hside with ⟨rfl, rfl⟩ | ⟨rfl, rfl⟩
      · exact .inl ⟨rfl, rfl⟩
      · exact .inr ⟨rfl, rfl⟩)
    have hmerged := hm.merge (z := ⟨lo.index, x.order + 1, false⟩) (by
      rcases hside with ⟨rfl, _⟩ | ⟨rfl, _⟩
      · exact .inl rfl
      · exact .inr rfl) h.tiles
    have hsame : SameAllocated (pre ++ lo :: hi :: post)
        (pre ++ ⟨lo.index, x.order + 1, false⟩ :: post) :=
      SameAllocated.replace pre [lo, hi] [⟨lo.index, x.order + 1, false⟩] post
        (by simp [hlo, hhi']) (by simp)
    -- The `while` of the source looks at the index again.
    have hlo_lt : lo.index < p.num_entries := by
      omega
    rw [if_pos hcond, if_pos hcond, ← hyi, hmin, if_pos (by exact hlo_lt), if_pos (by exact hlo_lt)]
    obtain ⟨bitmap', bs', heq, htiling, hmerged', hsame', z, hz, hzf, hzi, hzs, hin⟩ :=
      ih (x := ⟨lo.index, x.order + 1, false⟩) hround hn (by simp) rfl
        (by simp at hfuel ⊢; omega) hmerged hlo_lt
    refine ⟨bitmap', bs', heq, htiling, hmerged', hsame.trans hsame', z, hz, hzf, ?_, ?_, ?_⟩
    · simp only at hzi
      omega
    · simp only [Block.stop, pow_succ] at hzs ⊢
      rcases hside with ⟨rfl, _⟩ | ⟨rfl, _⟩ <;> omega
    rw [forall_mem_cons, forall_mem_cons, and_iff_right hxlt, and_iff_right (hyi ▸ hlt)]
    exact hin
  rw [if_neg hcond, if_neg hcond]
  refine ⟨p.bitmap, bs, rfl, h, hm.merged hx h.tiles ?_, SameAllocated.refl bs, x, hx,
    hfree, le_rfl, le_rfl, ?_⟩
  rotate_left
  · rw [forall_mem_cons, forall_mem_singleton, and_iff_right hxlt]
  intro y hy hxy
  obtain ⟨_, hyfree, hyo, hyi⟩ := hxy
  apply hcond
  have hb := h.bits y hy
  rw [← hyi, is_free_of_entry hb (h.index_lt hy), hyfree, order_of_entry hb]
  exact ⟨rfl, hyo⟩

/-! ## Searching -/

/-- What the search loop finds among the blocks it has still to visit. -/
theorem pmem_best_fit_spec {order fuel curr : Nat} {best : Option Nat} {rest : List (Block Bool)}
    (ht : Tiles curr rest p.num_entries)
    (hbits : ∀ b ∈ rest, p.bitmap b.index = ⟨b.tag, b.order⟩) (hfuel : rest.length ≤ fuel) :
    (pmem_best_fit p order fuel curr best = none →
      best = none ∧ ∀ b ∈ rest, b.tag = false → b.order < order) ∧
    (∀ i, pmem_best_fit p order fuel curr best = some i →
      best = some i ∨ ∃ b ∈ rest, b.index = i ∧ b.tag = false ∧ order ≤ b.order) := by
  induction fuel generalizing curr best rest with
  | zero =>
    have hrest := length_eq_zero_iff.mp (le_zero.mp hfuel)
    subst hrest
    unfold pmem_best_fit
    simp
  | succ fuel ih => ?_
  cases ht with
  | nil =>
    unfold pmem_best_fit
    simp
  | cons x hx hd hrest => ?_
  rename_i tail
  have hb := hbits x (by simp)
  have hlt : curr < p.num_entries := by
    have := hrest.le
    unfold Block.stop at this
    omega
  -- going on with `best'`, which is as it was or is this block
  have hgo : ∀ best' : Option Nat,
      (best' = none → best = none ∧ (x.tag = false → x.order < order)) →
      (∀ i, best' = some i → best = some i ∨
        (x.index = i ∧ x.tag = false ∧ order ≤ x.order)) →
      (pmem_best_fit p order fuel x.stop best' = none →
        best = none ∧ ∀ b ∈ x :: tail, b.tag = false → b.order < order) ∧
      (∀ i, pmem_best_fit p order fuel x.stop best' = some i → best = some i ∨
        ∃ b ∈ x :: tail, b.index = i ∧ b.tag = false ∧ order ≤ b.order) := by
    intro best' hnone hsome
    obtain ⟨ihnone, ihsome⟩ := @ih x.stop best' tail hrest
      (fun b hb => hbits b (by simp [hb])) (by simp at hfuel; omega)
    constructor
    · intro hr
      obtain ⟨hbest', htail⟩ := ihnone hr
      obtain ⟨hbest, hx'⟩ := hnone hbest'
      exact ⟨hbest, forall_mem_cons.mpr ⟨hx', htail⟩⟩
    intro i hr
    rcases ihsome i hr with hbest' | ⟨b, hb, hbi⟩
    · rcases hsome i hbest' with hbest | hx'
      · exact .inl hbest
      · exact .inr ⟨x, by simp, hx'⟩
    exact .inr ⟨b, by simp [hb], hbi⟩
  unfold pmem_best_fit
  subst hx
  rw [if_pos hlt, is_free_of_entry hb hlt, order_of_entry hb, next_of_entry hb]
  cases htag : x.tag with
  | true =>
    exact hgo best (fun h => ⟨h, by simp [htag]⟩) (fun i h => .inl h)
  | false => ?_
  rw [if_pos (by simp)]
  by_cases heq : x.order = order
  -- An exact fit ends the loop.
  · rw [if_pos heq]
    constructor
    · intro hr
      cases hr
    intro i hr
    cases hr
    exact .inr ⟨x, by simp, rfl, htag, by omega⟩
  rw [if_neg heq]
  split
  · rename_i hbetter
    apply hgo
    · intro h
      cases h
    intro i h
    cases h
    exact .inr ⟨rfl, htag, by omega⟩
  -- Too small, or no better than what was found before.
  rename_i hworse
  apply hgo best
  · intro h
    subst h
    simp only [Option.all_none, and_true] at hworse
    exact ⟨rfl, fun _ => by omega⟩
  intro i h
  exact .inl h

theorem pmem_best_fit_some {order i : Nat} (h : Tiling p.bitmap p.num_entries bs)
    (hr : pmem_best_fit p order p.num_entries 0 none = some i) :
    ∃ b ∈ bs, b.index = i ∧ b.tag = false ∧ order ≤ b.order := by
  have hlen := h.tiles.length_le
  rcases (pmem_best_fit_spec h.tiles h.bits (by omega)).2 i hr with hbest | hb
  · cases hbest
  · exact hb

end

end ops

end Nubernel.Pmem
