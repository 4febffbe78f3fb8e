import Mathlib.Data.List.Nodup
import Mathlib.Tactic.Ring
import Nubernel.Pmem.Blocks

/-! # pmem: what the allocator of a device guarantees

The operations are put together from the loops of the last module, and
the invariant is carried over all runs of `pmem_allocate` and
`pmem_free`. The result is stated on the walk over the bitmap that the
driver itself makes.
-/

namespace Nubernel.Pmem

open Buddy LTS List Nat

/-! ## Orders -/

/-- The number of pages that `pmem_order` looks at, less one. -/
def order_arg (len : Nat) : Nat := sub32 (add32 len (PMEM_MIN_ALLOC - 1) / PMEM_MIN_ALLOC) 1

theorem shiftRight_eq_zero_iff (m i : Nat) : m >>> i = 0 ↔ m < 2 ^ i := by
  rw [Nat.shiftRight_eq_div_pow, Nat.div_eq_zero_iff]
  have := Nat.two_pow_pos i
  omega

/-- `pmem_order` is the least order at which the shift clears its argument. -/
theorem pmem_order_spec (len : Nat) :
    pmem_order len ≤ 32 ∧ (pmem_order len < 32 → order_arg len < 2 ^ pmem_order len) ∧
    (∀ o, o < pmem_order len → 2 ^ o ≤ order_arg len) := by
  have heq : pmem_order len =
      ((List.range 32).find? fun i => decide (order_arg len >>> i = 0)).getD 32 := rfl
  rw [heq]
  cases hf : (List.range 32).find? fun i => decide (order_arg len >>> i = 0) with
  | none =>
    rw [List.find?_range_eq_none] at hf
    refine ⟨le_refl 32, fun h => absurd h (lt_irrefl 32), ?_⟩
    intro o ho
    have := hf o ho
    simp only [shiftRight_eq_zero_iff, Bool.not_eq_eq_eq_not, Bool.not_true,
      decide_eq_false_iff_not, not_lt] at this
    exact this
  | some i => ?_
  rw [List.find?_range_eq_some] at hf
  obtain ⟨hi, hmem, hbelow⟩ := hf
  have hlt : i < 32 := mem_range.mp hmem
  simp only [shiftRight_eq_zero_iff, decide_eq_true_eq] at hi
  refine ⟨le_of_lt hlt, fun _ => hi, ?_⟩
  intro o ho
  have := hbelow o ho
  simp only [shiftRight_eq_zero_iff, Bool.not_eq_eq_eq_not, Bool.not_true,
    decide_eq_false_iff_not, not_lt] at this
  exact this

/-- A block of a lower order has not, for any length but 0. -/
theorem lt_of_lt_pmem_order {len o : Nat} (hpos : 0 < len) (hlen : len < 2 ^ 32) (ho : o < 20)
    (h : o < pmem_order len) : 2 ^ o * PMEM_MIN_ALLOC < len := by
  have hle := (pmem_order_spec len).2.2 o h
  have hpow : 2 ^ o ≤ 2 ^ 19 := Nat.pow_le_pow_right (by omega) (by omega)
  unfold order_arg sub32 add32 PMEM_MIN_ALLOC PAGE_SIZE at *
  omega

/-! ## The operations -/

section ops
variable {p : PmemInfo} {bs : List (Block Bool)}

theorem best_fit_entries_lt {order fuel curr i : Nat}
    (hi : i ∈ best_fit_entries p order fuel curr) : i < p.num_entries := by
  induction fuel generalizing curr with
  | zero => cases hi
  | succ fuel ih => ?_
  unfold best_fit_entries at hi
  split at hi
  · rcases mem_cons.mp hi with rfl | hi
    · assumption
    split at hi
    · cases hi
    · exact ih hi
  cases hi

variable (h : Tiling p.bitmap p.num_entries bs) (hn : p.num_entries < 2 ^ 20) (hm : Merged bs)
include h hn hm

/-- What `pmem_allocate` does: nothing, or it marks one block allocated that
was free. -/
theorem pmem_allocate_spec (len : Nat) (hmode : p.no_allocator = false) :
    (pmem_allocate p len = (p, -1) ∧ ∀ b ∈ bs, b.tag = false → b.order < pmem_order len) ∨
    (∃ (i : Nat) (bitmap' : Nat → PmemBits) (bs' : List (Block Bool)),
      pmem_allocate p len = ({ p with bitmap := bitmap' }, (i : Int)) ∧
      Tiling bitmap' p.num_entries bs' ∧ Merged bs' ∧ pmem_order len < 20 ∧
      (∀ b ∈ bs, b.tag = true → b.index ≠ i) ∧
      (∀ b : Block Bool, b.tag = true → (b ∈ bs' ↔ b ∈ bs ∨ b = ⟨i, pmem_order len, true⟩))) := by
  have hle := (pmem_order_spec len).1
  -- The order is compared as an `unsigned char`.
  have hmod : pmem_order len % 2 ^ 8 = pmem_order len := by omega
  unfold pmem_allocate
  simp only
  rw [if_neg (by simp [hmode]), if_neg (by unfold PMEM_MAX_ORDER; omega), hmod]
  generalize pmem_order len = order at *
  cases hr : pmem_best_fit p order p.num_entries 0 none with
  | none =>
    have hlen := h.tiles.length_le
    exact .inl ⟨rfl, ((pmem_best_fit_spec h.tiles h.bits (by omega)).1 hr).2⟩
  | some i => ?_
  right
  obtain ⟨x, hx, rfl, hfree, hox⟩ := pmem_best_fit_some h hr
  obtain ⟨pre, post, rfl⟩ := append_of_mem hx
  -- Less than 2^20 pages, so every block has an order below 20.
  have hox' := h.order_lt hx hn
  obtain ⟨bitmap', post', heq, htiling, hmerged, hsame, _⟩ :=
    pmem_split_spec order (PMEM_ORDER p x.index) h (by omega) hfree hox
      (by rw [order_of_entry (h.bits x hx)]; omega) (hm.but x.index)
  have hx' : bitmap' x.index = ⟨false, order⟩ :=
    htiling.bits ⟨x.index, order, false⟩ (by simp)
  have hmark : Tiling (set_allocated { p with bitmap := bitmap' } x.index true).bitmap
      p.num_entries (pre ++ ⟨x.index, order, true⟩ :: post') := by
    apply htiling.retag true
    · simp [set_allocated, set_bits, hx']
    intro j hj
    simp [set_allocated, set_bits, hj]
  refine ⟨x.index, _, _, ?_, hmark, ?_, by omega, ?_, ?_⟩
  · simp only [heq]
    rfl
  · -- an allocated block is not merged with anything
    apply (hmerged.retag true).merged (x := ⟨x.index, order, true⟩) (by simp) hmark.tiles
    intro y _ hxy
    cases hxy.1
  · intro b hb htag heqi
    rw [h.tiles.eq_of_index hb hx heqi, hfree] at htag
    cases htag
  intro b htag
  rw [← hsame b htag]
  have hne : b ≠ ⟨x.index, order, false⟩ := by
    intro hb
    rw [hb] at htag
    cases htag
  simp [hne]
  tauto

theorem allocate_entries_lt {len i : Nat} (hi : i ∈ allocate_entries p len) :
    i < p.num_entries := by
  simp only [allocate_entries] at hi
  split at hi
  · cases hi
  rcases mem_append.mp hi with hi | hi
  · exact best_fit_entries_lt hi
  split at hi
  · cases hi
  rename_i hr
  obtain ⟨x, hx, rfl, hfree, hox⟩ := pmem_best_fit_some h hr
  rw [order_of_entry (h.bits x hx)] at hi
  obtain ⟨pre, post, rfl⟩ := append_of_mem hx
  obtain ⟨_, _, _, _, _, _, hin⟩ := pmem_split_spec _ x.order h (by omega) hfree hox
    (by omega) (hm.but x.index)
  exact hin i hi

/-- What `pmem_free` of an allocated block does: it is no longer allocated. Of what is
looked at, only the buddy of the block that is left may be outside of the bitmap. -/
theorem pmem_free_spec {x : Block Bool} (hmode : p.no_allocator = false) (hx : x ∈ bs) :
    ∃ (bitmap' : Nat → PmemBits) (bs' : List (Block Bool)),
      pmem_free p x.index = { p with bitmap := bitmap' } ∧
      Tiling bitmap' p.num_entries bs' ∧ Merged bs' ∧
      (∀ b : Block Bool, b.tag = true → (b ∈ bs' ↔ b ∈ bs ∧ b.index ≠ x.index)) ∧
      ∃ z ∈ bs', z.tag = false ∧ z.index ≤ x.index ∧ x.stop ≤ z.stop ∧
        ((∀ i ∈ free_entries p x.index, i < p.num_entries) ↔
          buddy z.index z.order < p.num_entries) := by
  have hxlt := h.index_lt hx
  obtain ⟨pre, post, rfl⟩ := append_of_mem hx
  have hmark : Tiling (set_allocated p x.index false).bitmap p.num_entries
      (pre ++ { x with tag := false } :: post) := by
    apply h.retag false
    · simp [set_allocated, set_bits, h.bits x hx]
    intro j hj
    simp [set_allocated, set_bits, hj]
  have hlen := hmark.tiles.length_le
  -- Each round has one block less, so the number of pages is enough fuel.
  have hmerge := pmem_merge_spec (p := set_allocated p x.index false)
    (x := { x with tag := false }) p.num_entries hmark
    (show p.num_entries < 2 ^ 32 by omega) (by simp) rfl (by omega) ((hm.but x.index).retag false)
  obtain ⟨bitmap', bs', heq, htiling, hmerged, hsame, z, hz, hzf, hzi, hzs, hin⟩ := hmerge
  refine ⟨bitmap', bs', ?_, htiling, hmerged, ?_, z, hz, hzf, hzi, hzs, ?_⟩
  · unfold pmem_free
    rw [if_neg (by simp [hmode])]
    exact heq
  · intro b htag
    rw [hsame b htag]
    have hne : b ≠ { x with tag := false } := by
      intro hb
      rw [hb] at htag
      cases htag
    rw [perm_middle.mem_iff, perm_middle.mem_iff, mem_cons, mem_cons]
    constructor
    · intro hb
      have hb' := hb.resolve_left hne
      have hout := h.tiles.outside hb'
      have hpos := Nat.two_pow_pos x.order
      unfold Block.stop at hout
      exact ⟨.inr hb', by omega⟩
    intro hb
    have hbx : b ≠ x := fun heqx => hb.2 (by rw [heqx])
    exact .inr (hb.1.resolve_left hbx)
  unfold free_entries
  rw [if_neg (by simp [hmode]), forall_mem_cons, and_iff_right hxlt]
  exact hin

end ops

/-! ## Setup -/

variable {bs : List (Block Bool)} {index n : Nat} {p : PmemInfo} {d d' : Device}

theorem Tiling.snoc {bitmap bitmap' : Nat → PmemBits} {a o : Nat} (h : Tiling bitmap a bs)
    (hd : 2 ^ o ∣ a) (ha : bitmap' a = ⟨false, o⟩) (hother : ∀ i, i ≠ a → bitmap' i = bitmap i) :
    Tiling bitmap' (a + 2 ^ o) (bs ++ [⟨a, o, false⟩]) := by
  constructor
  · exact Tiles.append_iff.mpr ⟨a, h.tiles, .cons _ rfl hd (.nil _)⟩
  · intro b hb
    rcases mem_append.mp hb with hb | hb
    · have hin := h.index_lt hb
      rw [hother _ (by omega)]
      exact h.bits b hb
    rw [mem_singleton.mp hb]
    exact ha
  intro i hi
  by_cases heq : i = a
  · rw [heq, ha] at hi
    cases hi
  rw [hother i heq] at hi
  obtain ⟨b, hb, hbi⟩ := h.heads i hi
  exact ⟨b, by simp [hb], hbi⟩

theorem and_one_shiftLeft_ne_zero (n i : Nat) : n &&& (1 <<< i) ≠ 0 ↔ n / 2 ^ i % 2 = 1 := by
  rw [one_shiftLeft, and_two_pow, testBit_eq_decide_div_mod_eq]
  by_cases h : n / 2 ^ i % 2 = 1
  · simp [h]
  · simp [h]

/-- The loop of `pmem_setup` writes the binary digits of `num_entries` as
blocks, the largest first. -/
theorem pmem_setup_loop_spec {i : Nat} (hi : i ≤ 32) (h : Tiling p.bitmap index bs)
    (hindex : index = p.num_entries / 2 ^ i * 2 ^ i) (hfree : ∀ b ∈ bs, b.tag = false)
    (hge : ∀ b ∈ bs, i ≤ b.order) (hnd : (bs.map Block.order).Nodup) :
    ∃ bitmap' bs', pmem_setup_loop i p index = { p with bitmap := bitmap' } ∧
      Tiling bitmap' p.num_entries bs' ∧ (∀ b ∈ bs', b.tag = false) ∧
      (bs'.map Block.order).Nodup := by
  induction i generalizing p index bs with
  | zero =>
    rw [Nat.pow_zero, Nat.div_one, Nat.mul_one] at hindex
    exact ⟨p.bitmap, bs, rfl, hindex ▸ h, hfree, hnd⟩
  | succ i ih => ?_
  have hhalf : p.num_entries / 2 ^ (i + 1) = p.num_entries / 2 ^ i / 2 := by
    rw [Nat.div_div_eq_div_mul, Nat.pow_succ]
  unfold pmem_setup_loop
  by_cases hbit : p.num_entries &&& (1 <<< i) ≠ 0
  · rw [if_pos hbit]
    rw [and_one_shiftLeft_ne_zero] at hbit
    have hdiv : p.num_entries / 2 ^ i = 2 * (p.num_entries / 2 ^ (i + 1)) + 1 := by omega
    have hd : 2 ^ i ∣ index := by
      rw [hindex, pow_succ]
      exact Nat.dvd_mul_left_of_dvd (Nat.dvd_mul_right _ _) _
    have hat : (set_order p index i).bitmap index = ⟨false, i⟩ := by
      -- A bit would belong to a block before `index`.
      have hnot : (p.bitmap index).allocated = false := by
        by_contra halloc
        obtain ⟨b, hb, hbi⟩ := h.heads index (by simpa using halloc)
        have hin := h.index_lt hb
        omega
      have hlt7 : i < 128 := by omega
      simp [set_order, set_bits, hnot, hlt7]
    have hnext : PMEM_NEXT_INDEX (set_order p index i) index = index + 2 ^ i :=
      next_of_entry (y := ⟨index, i, false⟩) hat
    have htiling : Tiling (set_order p index i).bitmap (index + 2 ^ i)
        (bs ++ [⟨index, i, false⟩]) := by
      apply h.snoc hd hat
      intro j hj
      simp [set_order, set_bits, hj]
    simp only [hnext]
    apply ih (by omega) htiling
    · show index + 2 ^ i = p.num_entries / 2 ^ i * 2 ^ i
      rw [hdiv, hindex, pow_succ, add_mul]
      ring
    · exact forall_mem_append.mpr ⟨hfree, forall_mem_singleton.mpr rfl⟩
    · refine forall_mem_append.mpr ⟨?_, forall_mem_singleton.mpr le_rfl⟩
      intro b hb
      exact le_of_succ_le (hge b hb)
    -- the orders go down, so the new block is the only one of its order
    rw [map_append, nodup_append_comm]
    refine nodup_cons.mpr ⟨?_, hnd⟩
    intro hmem
    obtain ⟨b, hb, rfl⟩ := mem_map.mp hmem
    exact not_succ_le_self _ (hge b hb)
  rw [if_neg hbit]
  rw [and_one_shiftLeft_ne_zero] at hbit
  have hdiv : p.num_entries / 2 ^ i = 2 * (p.num_entries / 2 ^ (i + 1)) := by omega
  apply ih (by omega) h _ hfree _ hnd
  · rw [hdiv, hindex, pow_succ]
    ring
  intro b hb
  exact le_of_succ_le (hge b hb)

/-- A device with an allocator starts with free blocks only, all merged. -/
theorem pmem_setup_spec (base size : UInt32) :
    ∃ bitmap' bs, pmem_setup base size false =
        ⟨base.toNat, size.toNat, size.toNat / PMEM_MIN_ALLOC, bitmap', false, false⟩ ∧
      Tiling bitmap' (size.toNat / PMEM_MIN_ALLOC) bs ∧ (∀ b ∈ bs, b.tag = false) ∧ Merged bs := by
  have hlt : size.toNat / PMEM_MIN_ALLOC < 2 ^ 32 :=
    lt_of_le_of_lt (div_le_self _ _) size.toNat_lt
  have hstart : Tiling (fun _ => ⟨false, 0⟩) 0 [] := by
    refine ⟨.nil 0, by simp, ?_⟩
    intro i hi
    cases hi
  obtain ⟨bitmap', bs, heq, htiling, hfree, hnd⟩ :=
    pmem_setup_loop_spec (p := ⟨base.toNat, size.toNat, size.toNat / PMEM_MIN_ALLOC,
      fun _ => ⟨false, 0⟩, false, false⟩) (i := 32) (le_refl 32) hstart
      (by rw [div_eq_of_lt hlt, zero_mul]) (by simp) (by simp) (by simp)
  refine ⟨bitmap', bs, heq, htiling, hfree, ?_⟩
  intro x hx y hy hxy
  -- No two blocks have the same order, and buddies would.
  rw [inj_on_of_nodup_map hnd hy hx hxy.2.2.1] at hxy
  exact buddy_ne _ _ hxy.2.2.2.symm

/-! ## All runs of a device -/

/-- The walk over the bitmap visits the blocks. -/
theorem walk_eq {fuel : Nat} {rest : List (Block Bool)} (ht : Tiles index rest p.num_entries)
    (hbits : ∀ b ∈ rest, p.bitmap b.index = ⟨b.tag, b.order⟩) (hfuel : rest.length ≤ fuel) :
    walk p fuel index = rest := by
  induction fuel generalizing index rest with
  | zero => rw [length_eq_zero_iff.mp (le_zero.mp hfuel), walk]
  | succ fuel ih => ?_
  unfold walk
  cases ht with
  | nil => rw [if_neg (lt_irrefl _)]
  | cons x hx hd hrest => ?_
  have hb := hbits x (by simp)
  have hle := hrest.le
  unfold Block.stop at hle
  subst hx
  rw [if_pos (by omega), next_of_entry hb, ih hrest (fun b hb => hbits b (by simp [hb]))
    (by simp at hfuel; omega), order_of_entry hb, hb]

theorem Tiling.blocks_eq (h : Tiling p.bitmap p.num_entries bs) : blocks p = bs := by
  have hlen := h.tiles.length_le
  exact walk_eq h.tiles h.bits (by omega)

/-- The allocated blocks are those of the live allocations, and have room. -/
structure Allocations (bs : List (Block Bool)) (live : List (Nat × Nat)) : Prop where
  nodup : (live.map Prod.fst).Nodup
  block : ∀ a ∈ live, ∃ b ∈ bs, b.tag = true ∧ b.index = a.1 ∧
    a.2 ≤ 2 ^ b.order * PMEM_MIN_ALLOC
  live : ∀ b ∈ bs, b.tag = true → b.index ∈ live.map Prod.fst

structure DeviceOk (n : Nat) (d : Device) (bs : List (Block Bool)) : Prop where
  mode : d.info.no_allocator = false
  size : d.info.num_entries < 2 ^ 20
  num : d.info.num_entries = n
  tiling : Tiling d.info.bitmap d.info.num_entries bs
  merged : Merged bs
  allocs : Allocations bs d.live

theorem DeviceOk.pmem_allocate (h : DeviceOk n d bs) (len : UInt32)
    (hstep : alloc_step d (.pmem_allocate len) = some d') :
    ∃ bs', DeviceOk n d' bs' := by
  simp only [alloc_step, Option.some.injEq] at hstep
  rcases pmem_allocate_spec h.tiling h.size h.merged len.toNat h.mode with
    ⟨heq, _⟩ | ⟨i, bitmap', bs', heq, htiling, hmerged, horder, hnew, hsame⟩
  · rw [heq] at hstep
    subst hstep
    exact ⟨bs, h⟩
  -- A block of the order that `pmem_order` asks for has room.
  have hroom : len.toNat ≤ 2 ^ pmem_order len.toNat * PMEM_MIN_ALLOC := by
    have hlen := len.toNat_lt
    have hlt := (pmem_order_spec len.toNat).2.1 (lt_trans horder (by omega))
    unfold order_arg sub32 add32 PMEM_MIN_ALLOC PAGE_SIZE at *
    omega
  generalize pmem_order len.toNat = order at *
  rw [heq] at hstep
  simp only [Int.natCast_nonneg, if_true, Int.toNat_natCast] at hstep
  subst hstep
  refine ⟨bs', h.mode, h.size, h.num, htiling, hmerged, ?_, ?_, ?_⟩
  · rw [map_cons, nodup_cons]
    refine ⟨?_, h.allocs.nodup⟩
    intro hmem
    obtain ⟨a, ha, hai⟩ := mem_map.mp hmem
    obtain ⟨b, hb, htag, hbi, _⟩ := h.allocs.block a ha
    exact hnew b hb htag (by rw [hbi]; exact hai)
  · intro a ha
    rcases mem_cons.mp ha with rfl | ha
    · exact ⟨⟨i, order, true⟩, (hsame _ rfl).mpr (.inr rfl), rfl, rfl, hroom⟩
    obtain ⟨b, hb, htag, hbi⟩ := h.allocs.block a ha
    exact ⟨b, (hsame b htag).mpr (.inl hb), htag, hbi⟩
  intro b hb htag
  rcases (hsame b htag).mp hb with hb | rfl
  · exact mem_cons_of_mem _ (h.allocs.live b hb htag)
  · exact mem_cons_self

theorem DeviceOk.pmem_free (h : DeviceOk n d bs) (index : Nat)
    (hstep : alloc_step d (.pmem_free index) = some d') :
    ∃ bs', DeviceOk n d' bs' := by
  simp only [alloc_step] at hstep
  by_cases hmem : index ∈ d.live.map Prod.fst
  · rw [if_pos hmem, Option.some.injEq] at hstep
    obtain ⟨a, ha, rfl⟩ := mem_map.mp hmem
    obtain ⟨x, hx, _, hxi, _⟩ := h.allocs.block a ha
    obtain ⟨bitmap', bs', heq, htiling, hmerged, hsame, _⟩ :=
      pmem_free_spec h.tiling h.size h.merged h.mode hx
    rw [← hxi, heq] at hstep
    subst hstep
    refine ⟨bs', h.mode, h.size, h.num, htiling, hmerged, ?_, ?_, ?_⟩
    · exact h.allocs.nodup.sublist (filter_sublist.map Prod.fst)
    · intro a' ha'
      obtain ⟨hlive, hne⟩ := mem_filter.mp ha'
      obtain ⟨b, hb, htag, hbi, hlen⟩ := h.allocs.block a' hlive
      refine ⟨b, (hsame b htag).mpr ⟨hb, ?_⟩, htag, hbi, hlen⟩
      rw [hbi]
      simpa using hne
    intro b hb htag
    obtain ⟨hold, hne⟩ := (hsame b htag).mp hb
    obtain ⟨a', ha', hai⟩ := mem_map.mp (h.allocs.live b hold htag)
    refine mem_map.mpr ⟨a', mem_filter.mpr ⟨ha', ?_⟩, hai⟩
    simpa [hai] using hne
  rw [if_neg hmem] at hstep
  cases hstep

/-- Every reachable state of a device is described by a list of blocks. -/
theorem device_ok_reachable {base size : UInt32} (h : (allocator base size).Reachable d) :
    ∃ bs, DeviceOk (size.toNat / PMEM_MIN_ALLOC) d bs := by
  refine System.invariant (P := fun d => ∃ bs, DeviceOk _ d bs) ?_ ?_ h
  · intro d hinit
    obtain rfl := hinit
    obtain ⟨bitmap', bs, heq, htiling, hfree, hmerged⟩ := pmem_setup_spec base size
    refine ⟨bs, ?_⟩
    rw [heq]
    refine ⟨rfl, ?_, rfl, htiling, hmerged, nodup_nil, by simp, ?_⟩
    · have := size.toNat_lt
      show size.toNat / 4096 < 2 ^ 20
      omega
    intro b hb htag
    rw [hfree b hb] at htag
    cases htag
  intro d l d' hok hstep
  obtain ⟨bs, hok⟩ := hok
  cases l with
  | pmem_allocate len => exact hok.pmem_allocate len hstep
  | pmem_free index => exact hok.pmem_free index hstep

/-- **The allocator of a device**, in every state that `pmem_allocate` and
`pmem_free` can lead to. -/
theorem allocator_blocks_ok {base size : UInt32} {d : Device}
    (h : (allocator base size).Reachable d) :
    d.info.num_entries = size.toNat / PMEM_MIN_ALLOC ∧
    -- the walk from page 0 visits aligned blocks that tile the space
    Tiles 0 (blocks d.info) d.info.num_entries ∧
    -- the allocated blocks are those of the allocations, long enough and disjoint
    (∀ a ∈ d.live, ∃ b ∈ blocks d.info, b.tag = true ∧ b.index = a.1 ∧
      a.2 ≤ 2 ^ b.order * PMEM_MIN_ALLOC) ∧
    (∀ b ∈ blocks d.info, b.tag = true → b.index ∈ d.live.map Prod.fst) ∧
    d.live.Pairwise (fun a a' => PMEM_NEXT_INDEX d.info a.1 ≤ a'.1 ∨
      PMEM_NEXT_INDEX d.info a'.1 ≤ a.1) ∧
    -- no two free buddies of one order
    (∀ x ∈ blocks d.info, ∀ y ∈ blocks d.info, x.tag = false → y.tag = false →
      y.order = x.order → y.index ≠ buddy x.index x.order) ∧
    -- an allocation fails only without a free block that is large enough
    (∀ len : UInt32, (pmem_allocate d.info len.toNat).2 < 0 →
      ∀ b ∈ blocks d.info, b.tag = false → b.order < pmem_order len.toNat ∧
        (0 < len.toNat → 2 ^ b.order * PMEM_MIN_ALLOC < len.toNat)) := by
  obtain ⟨bs, hok⟩ := device_ok_reachable h
  rw [hok.tiling.blocks_eq]
  refine ⟨hok.num, hok.tiling.tiles, hok.allocs.block, hok.allocs.live, ?_, ?_, ?_⟩
  · have hnd := pairwise_map.mp hok.allocs.nodup
    apply hnd.imp_of_mem
    intro a a' ha ha' hne
    obtain ⟨b, hb, _, hbi, _⟩ := hok.allocs.block a ha
    obtain ⟨b', hb', _, hbi', _⟩ := hok.allocs.block a' ha'
    have hstop := next_of_entry (hok.tiling.bits b hb)
    have hstop' := next_of_entry (hok.tiling.bits b' hb')
    rw [← hbi, ← hbi', hstop, hstop']
    rw [← hbi, ← hbi'] at hne
    exact hok.tiling.tiles.disjoint hb hb' (fun heq => hne (by rw [heq]))
  · intro x hx y hy hfx hfy ho hi
    exact hok.merged x hx y hy ⟨hfx, hfy, ho, hi⟩
  intro len hneg b hb hfree
  rcases pmem_allocate_spec hok.tiling hok.size hok.merged len.toNat hok.mode with
    ⟨_, hnone⟩ | ⟨i, bitmap', bs', heq, _⟩
  · have hlt := hnone b hb hfree
    have hb20 := hok.tiling.order_lt hb hok.size
    exact ⟨hlt, fun hpos => lt_of_lt_pmem_order hpos len.toNat_lt hb20 hlt⟩
  rw [heq] at hneg
  omega

/-- A device of five pages after two allocations, of which the first has
been freed. -/
theorem allocator_blocks_ok_five_pages : ∃ d : Device,
    d.live = [(4, 4096)] ∧ (blocks d.info).map (fun b => (b.index, b.order)) = [(0, 2), (4, 0)] ∧
    Tiles 0 (blocks d.info) d.info.num_entries := by
  obtain ⟨d, hreach, hlive, hblocks⟩ : ∃ d, (allocator 0 20480).Reachable d ∧
      d.live = [(4, 4096)] ∧ (blocks d.info).map (fun b => (b.index, b.order)) = [(0, 2), (4, 0)] :=
    System.exists_of_replay [.pmem_allocate 5000, .pmem_allocate 4096, .pmem_free 0] rfl
      (by decide +kernel)
  exact ⟨d, hlive, hblocks, (allocator_blocks_ok hreach).2.1⟩

/-! ## The entries of the bitmap -/

/-- A stretch of the size and the place of a block, with all that lies in it free and
merged, is one block. -/
theorem Merged.single {k c : Nat} (hm : Merged bs) (h : Tiles 0 bs n) (hd : 2 ^ k ∣ c)
    (hend : c + 2 ^ k ≤ n) (hhead : ∃ y ∈ bs, y.index = c ∧ y.order ≤ k)
    (hfree : ∀ b ∈ bs, c ≤ b.index → b.index < c + 2 ^ k → b.tag = false) :
    ∃ y ∈ bs, y.index = c ∧ y.order = k := by
  induction k generalizing c with
  | zero =>
    obtain ⟨y, hy, hyi, hle⟩ := hhead
    exact ⟨y, hy, hyi, Nat.le_zero.mp hle⟩
  | succ k ih => ?_
  obtain ⟨y, hy, hyi, hle⟩ := hhead
  rcases Nat.lt_or_eq_of_le hle with hlt | heq
  · -- The two halves are blocks, and would have been merged.
    have hhalf : 2 ^ (k + 1) = 2 ^ k + 2 ^ k := by rw [pow_succ, Nat.mul_two]
    have hpos := Nat.two_pow_pos k
    have hdk : 2 ^ k ∣ c := dvd_trans (pow_dvd_pow 2 (Nat.le_succ k)) hd
    obtain ⟨lo, hlo, hloi, hloo⟩ := ih hdk (by omega) ⟨y, hy, hyi, by omega⟩
      fun b hb hcb hbc => hfree b hb hcb (by omega)
    have hbuddy : buddy lo.index lo.order = c + 2 ^ k := by
      rw [hloi, hloo, buddy_of_dvd hd]
    obtain ⟨y', hy', hyi', hle'⟩ := h.buddy_head hlo (by omega)
    obtain ⟨hi, hhi, hhii, hhio⟩ := ih (Nat.dvd_add hdk (dvd_refl _)) (by omega)
      ⟨y', hy', hyi'.trans hbuddy, by omega⟩ fun b hb hcb hbc => hfree b hb (by omega) (by omega)
    exact absurd ⟨hfree lo hlo (by omega) (by omega), hfree hi hhi (by omega) (by omega),
      hhio.trans hloo.symm, hhii.trans hbuddy.symm⟩ (hm lo hlo hi hhi)
  exact ⟨y, hy, hyi, heq⟩

/-- The last stretch of `2 ^ v` pages begins with a block that does not go beyond. -/
theorem last_head {v c : Nat} (h : Tiles 0 bs n) (hc : c + 2 ^ v = n) (hd : 2 ^ (v + 1) ∣ c) :
    ∃ y ∈ bs, y.index = c ∧ y.order ≤ v := by
  have hpos := Nat.two_pow_pos v
  obtain ⟨y, hy, hyi⟩ := h.exists_mem (i := c) ⟨Nat.zero_le _, by omega⟩
  obtain ⟨_, hstop, hdy⟩ := h.mem hy
  have hdv : 2 ^ v ∣ c := dvd_trans (pow_dvd_pow 2 (Nat.le_succ v)) hd
  have hle : y.order ≤ v := by
    by_contra hlt
    have hstart : 2 ^ (v + 1) ∣ y.index := dvd_trans (pow_dvd_pow 2 (by omega)) hdy
    have hin := mem_of_div_eq (Nat.two_pow_pos _) hstart
      (Nat.dvd_add hstart (pow_dvd_pow 2 (show v + 1 ≤ y.order by omega))) hyi (buddy_div hdv).symm
    rw [buddy_of_dvd hd] at hin
    unfold Block.stop at hstop
    omega
  exact ⟨y, hy, index_eq hdy hyi hdv hle, hle⟩

/-- The block at `index` is in the last `2 ^ v` pages, where `2 ^ v` is the largest power of
two that divides the number of pages, and no other one is allocated there. -/
def OnlyInLast (p : PmemInfo) (index : Nat) : Prop :=
  ∃ v, 2 ^ v ∣ p.num_entries ∧ ¬2 ^ (v + 1) ∣ p.num_entries ∧ p.num_entries ≤ index + 2 ^ v ∧
    ∀ b ∈ blocks p, p.num_entries ≤ b.index + 2 ^ v → b.tag = true → b.index = index

/-- **The entries of the bitmap.** Every entry that an allocation reads or writes is in the
bitmap. So is every entry that `pmem_free` does, if and only if the block is not the
only one in the last pages. -/
theorem entries_in_bitmap {base size : UInt32} (h : (allocator base size).Reachable d) :
    (∀ len : UInt32, ∀ i ∈ allocate_entries d.info len.toNat, i < d.info.num_entries) ∧
    ∀ index ∈ d.live.map Prod.fst,
      ((∀ i ∈ free_entries d.info index, i < d.info.num_entries) ↔ ¬OnlyInLast d.info index) := by
  obtain ⟨bs, hok⟩ := device_ok_reachable h
  refine ⟨fun len i => allocate_entries_lt hok.tiling hok.size hok.merged, ?_⟩
  intro index hlive
  obtain ⟨a, ha, rfl⟩ := mem_map.mp hlive
  obtain ⟨x, hx, _, hxi, _⟩ := hok.allocs.block a ha
  obtain ⟨bitmap', bs', _, htiling, hmerged, hsame, z, hz, hzf, hzi, hzs, hin⟩ :=
    pmem_free_spec hok.tiling hok.size hok.merged hok.mode hx
  obtain ⟨_, hzn, hzd⟩ := htiling.tiles.mem hz
  rw [OnlyInLast, hok.tiling.blocks_eq, ← hxi, hin]
  have hxz : z.index ≤ x.index ∧ x.index < z.stop := by
    have := Nat.two_pow_pos x.order
    unfold Block.stop at hzs ⊢
    omega
  constructor
  · rintro hlt ⟨v, hdv, hodd, hlast, halone⟩
    -- The pages from `c` on are one block after the merging, the one that is left.
    obtain ⟨c, hc⟩ := Nat.exists_eq_add_of_le' (Nat.le_of_dvd (by omega) hdv)
    rw [hc] at hodd
    have hdc : 2 ^ v ∣ c := (Nat.dvd_add_left (dvd_refl _)).mp (hc ▸ hdv)
    have hd := (dvd_start_iff hdc).mpr hodd
    obtain ⟨y, hy, hyi, hyo⟩ := hmerged.single htiling.tiles hdc (by omega)
      (last_head htiling.tiles hc.symm hd) fun b hb hcb _ => by
        by_contra htag
        obtain ⟨hold, hne⟩ := (hsame b (Bool.eq_true_of_not_eq_false htag)).mp hb
        exact hne (halone b hold (by omega) (Bool.eq_true_of_not_eq_false htag))
    have hxn := hok.tiling.index_lt hx
    have hzy : z = y := htiling.tiles.eq_of_mem hz hy hxz (by
      unfold Block.stop
      rw [hyi, hyo]
      omega)
    rw [hzy, hyi, hyo, buddy_of_dvd hd] at hlt
    omega
  intro hnot
  by_contra hge
  rcases buddy_cases hzd with ⟨hd, heq⟩ | ⟨_, heq⟩
  · have hstop : z.index + 2 ^ z.order = d.info.num_entries := by
      unfold Block.stop at hzn
      omega
    refine hnot ⟨z.order, ?_, ?_, by omega, fun b hb hlast htag => ?_⟩
    · exact hstop ▸ Nat.dvd_add hzd (dvd_refl _)
    · exact hstop ▸ (dvd_start_iff hzd).mp hd
    by_contra hne
    have hb' := (hsame b htag).mpr ⟨hb, hne⟩
    have hbn := htiling.index_lt hb'
    have hpos := Nat.two_pow_pos b.order
    have hbz := htiling.tiles.eq_of_mem hb' hz (i := b.index) ⟨le_rfl, by unfold Block.stop; omega⟩
      ⟨by omega, by unfold Block.stop; omega⟩
    rw [hbz, hzf] at htag
    cases htag
  have := htiling.index_lt hz
  omega

/-- The first two of three pages are freed. -/
theorem entries_in_bitmap_three_pages : ∃ d : Device, 0 ∈ d.live.map Prod.fst ∧
    d.info.num_entries = 3 ∧ ∀ i ∈ free_entries d.info 0, i < 3 := by
  obtain ⟨d, hreach, hlive, hnum⟩ : ∃ d, (allocator 0 12288).Reachable d ∧
      0 ∈ d.live.map Prod.fst ∧ d.info.num_entries = 3 :=
    System.exists_of_replay [.pmem_allocate 8192] rfl (by decide +kernel)
  have hin := (entries_in_bitmap hreach).2 0 hlive
  rw [OnlyInLast, hnum] at hin
  refine ⟨d, hlive, hnum, hin.mpr ?_⟩
  rintro ⟨v, hdv, _, hlast, _⟩
  -- The number of pages is odd, so that only the last page counts.
  rcases Nat.eq_zero_or_pos v with rfl | hpos
  · omega
  have := dvd_trans (dvd_pow_self 2 (Nat.pos_iff_ne_zero.mp hpos)) hdv
  omega

/-- A device of one page: freeing it reads the entry behind the bitmap. -/
theorem free_reads_behind_bitmap : ∃ d : Device, (allocator 0 4096).Reachable d ∧
    d.info.num_entries = 1 ∧ 0 ∈ d.live.map Prod.fst ∧ 1 ∈ free_entries d.info 0 :=
  System.exists_of_replay [.pmem_allocate 4096] rfl (by decide +kernel)

end Nubernel.Pmem
