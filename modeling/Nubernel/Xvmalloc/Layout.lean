import Nubernel.Lib.Tiling
import Nubernel.Xvmalloc.Lists

/-! # xvmalloc: how a page is divided

A layout says which blocks a page has: for each offset at which a block starts
its header. `Tiles` is what holds of the blocks of a page, and the lemmas
say how it is kept when a block is split, when two are merged, and when one
is taken or given back.
-/

open Function Option Tiling

namespace Nubernel.Xvmalloc

/-- The header of the block that starts at an offset. -/
abbrev Layout := Nat → Option Hdr

/-- The bytes that a block takes, with its header. -/
def Hdr.span (h : Hdr) : Nat := ALIGN h.size XV_ALIGN + XV_ALIGN

def spans (lay : Layout) : Nat → Option Nat := fun o => (lay o).map Hdr.span

/-- The blocks of a page tile it, no two neighbours are both free, and each block
knows whether the one before it is free and where it then starts; the last
need not hold of the block after a block in `H`. -/
structure Tiles (lay : Layout) (H : Nat → Prop) : Prop where
  tiling : Tiling PAGE_SIZE (spans lay)
  aligned : ∀ {o h}, lay o = some h → o % 4 = 0
  first : ∀ {h}, lay 0 = some h → h.prevFree = false
  freeSize : ∀ {o h}, lay o = some h → h.free = true → h.size % 4 = 0
  apart : ∀ {o h h'}, lay o = some h → lay (o + h.span) = some h' → h.free = true →
    h'.free = false
  prev : ∀ {o h h'}, ¬H o → lay o = some h → lay (o + h.span) = some h' →
    h'.prevFree = h.free ∧ (h.free = true → h'.prev = o)

/-! ## Blocks -/

theorem ALIGN_four (x : Nat) : ALIGN x XV_ALIGN = (x + 3) / 4 * 4 := rfl

theorem Hdr.span_eq (h : Hdr) : h.span = (h.size + 3) / 4 * 4 + 4 := rfl

variable {h : Hdr} {lay : Layout} {o : Nat}

theorem Hdr.span_of_aligned (hsize : h.size % 4 = 0) : h.span = h.size + 4 := by
  rw [Hdr.span_eq]
  omega

theorem Hdr.span_pos (h : Hdr) : 4 ≤ h.span := by
  rw [Hdr.span_eq]
  omega

theorem Hdr.span_mod (h : Hdr) : h.span % 4 = 0 := by
  rw [Hdr.span_eq]
  omega

/-- The block that two neighbours are merged to ends where the second did. -/
theorem span_merged {h' : Hdr} (hsize : h.size % 4 = 0) (hsize' : h'.size % 4 = 0) :
    ({ h with size := h.size + (h'.size + XV_ALIGN) } : Hdr).span = h.span + h'.span := by
  rw [Hdr.span_eq, Hdr.span_of_aligned hsize, Hdr.span_of_aligned hsize']
  simp only [XV_ALIGN]
  omega

theorem spans_of_some (ho : lay o = some h) :
    spans lay o = some h.span := by
  unfold spans
  rw [ho]
  rfl

theorem exists_of_spans {n : Nat} (ho : spans lay o = some n) :
    ∃ h, lay o = some h ∧ h.span = n := by
  exact map_eq_some_iff.mp ho

theorem spans_update (lay : Layout) (o : Nat) (v : Option Hdr) :
    spans (update lay o v) = update (spans lay) o (v.map Hdr.span) :=
  comp_update (Option.map Hdr.span) lay o v

section tiles
variable {lay lay' : Layout} {H : Nat → Prop} {o o' : Nat} {h h' : Hdr}

theorem Tiles.weaken {H' : Nat → Prop} (ht : Tiles lay H)
    (hH : ∀ o h, lay o = some h → H o → H' o) : Tiles lay H' :=
  ⟨ht.tiling, ht.aligned, ht.first, ht.freeSize, ht.apart,
    fun hn ho ho' => ht.prev (fun hh => hn (hH _ _ ho hh)) ho ho'⟩

/-- What holds of each block, and of each two neighbours. -/
theorem Tiles.of_blocks (htiling : Tiling PAGE_SIZE (spans lay))
    (hblock : ∀ {o h}, lay o = some h →
      o % 4 = 0 ∧ (o = 0 → h.prevFree = false) ∧ (h.free = true → h.size % 4 = 0))
    (hpair : ∀ {o h h'}, lay o = some h → lay (o + h.span) = some h' →
      (h.free = true → h'.free = false) ∧
      (¬H o → h'.prevFree = h.free ∧ (h.free = true → h'.prev = o))) : Tiles lay H :=
  ⟨htiling, fun ho => (hblock ho).1, fun ho => (hblock ho).2.1 rfl, fun ho => (hblock ho).2.2,
    fun ho ho' => (hpair ho ho').1, fun hH ho ho' => (hpair ho ho').2 hH⟩

section
variable (ht : Tiles lay H) (ho : lay o = some h)
include ht ho

theorem Tiles.block :
    o % 4 = 0 ∧ (o = 0 → h.prevFree = false) ∧ (h.free = true → h.size % 4 = 0) :=
  ⟨ht.aligned ho, fun hzero => ht.first (hzero ▸ ho), ht.freeSize ho⟩

theorem Tiles.inside : o + h.span ≤ PAGE_SIZE :=
  ht.tiling.inside (spans_of_some ho)

theorem Tiles.size_le : h.size ≤ 4092 := by
  have hin := ht.inside ho
  rw [Hdr.span_eq] at hin
  unfold PAGE_SIZE at hin
  omega

theorem Tiles.next (hne : o + h.span ≠ PAGE_SIZE) :
    ∃ h', lay (o + h.span) = some h' := by
  obtain ⟨n, hn⟩ := ne_none_iff_exists'.mp (ht.tiling.next (spans_of_some ho) hne)
  obtain ⟨h', ho', _⟩ := exists_of_spans hn
  exact ⟨h', ho'⟩

theorem Tiles.pred (hne : o ≠ 0) :
    ∃ p hp, lay p = some hp ∧ p + hp.span = o := by
  obtain ⟨p, n, hp, hend⟩ := ht.tiling.pred (spans_of_some ho) hne
  obtain ⟨hp', hlay, rfl⟩ := exists_of_spans hp
  exact ⟨p, hp', hlay, hend⟩

theorem Tiles.le_of_lt (ho' : lay o' = some h') (hlt : o < o') : o + h.span ≤ o' :=
  ht.tiling.le_of_lt (spans_of_some ho) (spans_of_some ho') hlt

theorem Tiles.disjoint (ho' : lay o' = some h') (hne : o ≠ o') :
    o + h.span ≤ o' ∨ o' + h'.span ≤ o :=
  ht.tiling.disjoint (spans_of_some ho) (spans_of_some ho') hne

/-- Two blocks that end at the same place are the same. -/
theorem Tiles.none_inside {x : Nat} (hlo : o < x) (hhi : x < o + h.span) : lay x = none := by
  by_contra hsome
  obtain ⟨n, hn⟩ := ne_none_iff_exists'.mp hsome
  exact absurd (ht.le_of_lt ho hn hlo) (Nat.not_le.mpr hhi)

theorem Tiles.eq_of_end (ho' : lay o' = some h') (hend : o + h.span = o' + h'.span) : o = o' := by
  have hpos := h.span_pos
  have hpos' := h'.span_pos
  by_contra hne
  have hor := ht.disjoint ho ho' hne
  omega

/-! ## Changes -/

/-- **Two blocks are merged**: the second one goes, and the first one takes its
place as well. -/
theorem Tiles.merge (ho' : lay (o + h.span) = some h') (hsize : h.size % 4 = 0)
    (hsize' : h'.size % 4 = 0)
    (hnext : h.free = true → ∀ n, lay (o + h.span + h'.span) = some n → n.free = false) :
    Tiles (update (update lay (o + h.span) none) o
        (some { h with size := h.size + (h'.size + XV_ALIGN) }))
      (fun x => x = o ∨ H x) := by
  have hspan := @span_merged h h' hsize hsize'
  have hpos := h'.span_pos
  generalize hbig : ({ h with size := h.size + (h'.size + XV_ALIGN) } : Hdr) = big at hspan ⊢
  have hbfree : big.free = h.free := by rw [← hbig]
  have hbpf : big.prevFree = h.prevFree := by rw [← hbig]
  have hbprev : big.prev = h.prev := by rw [← hbig]
  have hbsize : big.size % 4 = 0 := by
    rw [← hbig]
    unfold XV_ALIGN
    simp only
    omega
  have hspans : spans (update (update lay (o + h.span) none) o (some big)) =
      update (update (spans lay) (o + h.span) none) o
        (some (h.span + h'.span)) := by
    rw [spans_update, spans_update]
    exact congrArg (update (update (spans lay) (o + h.span) none) o) (congrArg some hspan)
  refine .of_blocks ?_ ?_ ?_
  · rw [hspans]
    exact ht.tiling.merge (spans_of_some ho) (spans_of_some ho')
  · intro x hx hlay
    rcases update_none_eq_some hlay with ⟨rfl, rfl⟩ | ⟨_, _, hlay'⟩
    · rw [hbpf]
      exact ⟨ht.aligned ho, (ht.block ho).2.1, fun _ => hbsize⟩
    exact ht.block hlay'
  intro x hx hy hlay hlayn
  rcases update_none_eq_some hlay with ⟨rfl, rfl⟩ | ⟨hxo, _, hlay'⟩
  · refine ⟨fun hfree => ?_, fun hH => absurd (.inl rfl) hH⟩
    rw [hspan, ← Nat.add_assoc] at hlayn
    rcases update_none_eq_some hlayn with ⟨heq, _⟩ | ⟨_, _, hlayn'⟩
    · omega
    · exact hnext (hbfree.symm.trans hfree) hy hlayn'
  rcases update_none_eq_some hlayn with ⟨heq, rfl⟩ | ⟨_, _, hlayn'⟩
  · rw [hbfree, hbpf, hbprev]
    rw [← heq] at ho
    exact ⟨ht.apart hlay' ho, fun hH => ht.prev (fun hx => hH (.inr hx)) hlay' ho⟩
  exact ⟨ht.apart hlay' hlayn', fun hH => ht.prev (fun hx => hH (.inr hx)) hlay' hlayn'⟩

end

/-- **A free block is split** into a part that is in use and the rest, which is
free; the block behind it does not know yet. -/
theorem Tiles.split (ht : Tiles lay fun _ => False) (ho : lay o = some h) (hfree : h.free = true)
    {orig rest : Nat} (hsize : ALIGN orig XV_ALIGN + XV_ALIGN + rest = h.size) :
    Tiles (update
        (update lay o (some { h with size := orig, free := false }))
        (o + (ALIGN orig XV_ALIGN + XV_ALIGN)) (some ⟨rest, true, false, o⟩))
      (fun x => x = o + (ALIGN orig XV_ALIGN + XV_ALIGN)) := by
  have hal := ht.freeSize ho hfree
  have hrest : rest % 4 = 0 := by
    rw [ALIGN_four] at hsize
    unfold XV_ALIGN at hsize
    omega
  have hspan : h.span = ALIGN orig XV_ALIGN + XV_ALIGN + (rest + 4) := by
    rw [Hdr.span_of_aligned hal]
    omega
  have hspan₁ : ({ h with size := orig, free := false } : Hdr).span =
      ALIGN orig XV_ALIGN + XV_ALIGN := rfl
  have hspan₂ : (⟨rest, true, false, o⟩ : Hdr).span = rest + 4 := Hdr.span_of_aligned hrest
  have hpos : 0 < ALIGN orig XV_ALIGN + XV_ALIGN := by
    unfold XV_ALIGN
    omega
  generalize hused : ({ h with size := orig, free := false } : Hdr) = used at hspan₁ ⊢
  have hufree : used.free = false := by rw [← hused]
  have hupf : used.prevFree = h.prevFree := by rw [← hused]
  have huprev : used.prev = h.prev := by rw [← hused]
  generalize ALIGN orig XV_ALIGN + XV_ALIGN = a at *
  have hspans : spans (update (update lay o (some used)) (o + a) (some ⟨rest, true, false, o⟩)) =
      update (update (spans lay) o (some a)) (o + a) (some (rest + 4)) := by
    rw [spans_update, spans_update]
    show update (update (spans lay) o (some used.span)) (o + a) (some (Hdr.span _)) = _
    rw [hspan₁, hspan₂]
  -- Another block does not end at the new one.
  have hend : ∀ {x : Nat} {hx : Hdr}, x ≠ o → lay x = some hx → x + hx.span ≠ o + a := by
    intro x hx hxo hlay heq
    have hor := ht.disjoint hlay ho hxo
    omega
  refine .of_blocks ?_ ?_ ?_
  · rw [hspans]
    refine ht.tiling.split hpos (by omega) ?_
    rw [← hspan]
    exact spans_of_some ho
  · intro x hx hlay
    have hao := ht.aligned ho
    rcases update_update_eq_some hlay with ⟨rfl, rfl⟩ | ⟨rfl, rfl⟩ | ⟨_, _, hlay'⟩
    · rw [hupf, hufree]
      exact ⟨hao, (ht.block ho).2.1, nofun⟩
    · exact ⟨by omega, by omega, fun _ => hrest⟩
    · exact ht.block hlay'
  intro x hx hy hlay hlayn
  rcases update_update_eq_some hlay with ⟨rfl, rfl⟩ | ⟨rfl, rfl⟩ | ⟨hxo, _, hlay'⟩
  · rw [hspan₁, update_self, some.injEq] at hlayn
    subst hlayn
    rw [hufree]
    exact ⟨nofun, fun _ => ⟨rfl, nofun⟩⟩
  · refine ⟨fun _ => ?_, fun hH => absurd rfl hH⟩
    rw [hspan₂, Nat.add_assoc, ← hspan] at hlayn
    rcases update_update_eq_some hlayn with ⟨heq, _⟩ | ⟨heq, _⟩ | ⟨_, _, hlayn'⟩
    · omega
    · omega
    · exact ht.apart ho hlayn' hfree
  rcases update_update_eq_some hlayn with ⟨heq, rfl⟩ | ⟨heq, _⟩ | ⟨_, _, hlayn'⟩
  · rw [hupf, huprev]
    rw [← heq] at ho
    exact ⟨fun _ => hufree, fun _ => ht.prev id hlay' ho⟩
  · exact absurd heq (hend hxo hlay')
  · exact ⟨ht.apart hlay' hlayn', fun _ => ht.prev id hlay' hlayn'⟩

/-- **A block is settled**: it gets another header, and the block behind it is
told whether it is free. -/
theorem Tiles.settle (ht : Tiles lay H) (hH : ∀ x, H x → x = o) (ho : lay o = some h)
    (hspan : h'.span = h.span) (hpf : h'.prevFree = h.prevFree) (hprev : h'.prev = h.prev)
    (hsize : h'.free = true → h'.size % 4 = 0)
    (hbefore : h'.free = true → ∀ p hp, lay p = some hp → p + hp.span = o → hp.free = false)
    (hbehind : h'.free = true → ∀ n, lay (o + h.span) = some n → n.free = false)
    (hlo : lay' o = some h')
    (hln : ∀ n, lay (o + h.span) = some n → ∃ n', lay' (o + h.span) = some n' ∧
      n'.size = n.size ∧ n'.free = n.free ∧ n'.prevFree = h'.free ∧ (h'.free = true → n'.prev = o))
    (hother : ∀ x, x ≠ o → x ≠ o + h.span ∨ lay x = none → lay' x = lay x) :
    Tiles lay' fun _ => False := by
  have hpos := h.span_pos
  -- The header of a block before.
  have hold : ∀ {x : Nat} {hx : Hdr}, lay' x = some hx →
      x = o ∧ hx = h' ∨
      (x = o + h.span ∧ (∃ n, lay x = some n ∧ hx.size = n.size ∧ hx.free = n.free) ∧
        hx.prevFree = h'.free ∧ (h'.free = true → hx.prev = o)) ∨
      x ≠ o ∧ x ≠ o + h.span ∧ lay x = some hx := by
    intro x hx hlay
    by_cases hxo : x = o
    · subst hxo
      rw [hlo, some.injEq] at hlay
      exact .inl ⟨rfl, hlay.symm⟩
    by_cases hxs : x = o + h.span
    · cases hn : lay x with
      | none =>
        rw [hother x hxo (.inr hn), hn] at hlay
        cases hlay
      | some n => ?_
      subst hxs
      obtain ⟨n', hn', hsz, hfr, hnpf, hnp⟩ := hln n hn
      rw [hn', some.injEq] at hlay
      subst hlay
      exact .inr (.inl ⟨rfl, ⟨n, rfl, hsz, hfr⟩, hnpf, hnp⟩)
    rw [hother x hxo (.inl hxs)] at hlay
    exact .inr (.inr ⟨hxo, hxs, hlay⟩)
  have hspan_congr : ∀ {a b : Hdr}, a.size = b.size → a.span = b.span := by
    intro a b hab
    rw [Hdr.span_eq, Hdr.span_eq, hab]
  have hspans : spans lay' = spans lay := by
    funext x
    unfold spans
    by_cases hxo : x = o
    · subst hxo
      rw [hlo, ho]
      exact congrArg some hspan
    by_cases hxs : x = o + h.span
    · cases hn : lay x with
      | none => rw [hother x hxo (.inr hn), hn]
      | some n => ?_
      subst hxs
      obtain ⟨n', hn', hsz, _⟩ := hln n hn
      rw [hn']
      exact congrArg some (hspan_congr hsz)
    rw [hother x hxo (.inl hxs)]
  refine .of_blocks ?_ ?_ ?_
  · rw [hspans]
    exact ht.tiling
  · intro x hx hlay
    rcases hold hlay with ⟨rfl, rfl⟩ | ⟨rfl, ⟨n, hn, hsz, hfr⟩, _⟩ | ⟨_, _, hlay'⟩
    · rw [hpf]
      exact ⟨ht.aligned ho, (ht.block ho).2.1, hsize⟩
    · rw [hsz, hfr]
      exact ⟨ht.aligned hn, by omega, ht.freeSize hn⟩
    · exact ht.block hlay'
  intro x hx hy hlay hlayn
  rcases hold hlay with ⟨rfl, rfl⟩ | ⟨rfl, ⟨n, hn, hsz, hfr⟩, _⟩ | ⟨hxo, hxs, hlay'⟩
  · rw [hspan] at hlayn
    rcases hold hlayn with ⟨heq, _⟩ | ⟨_, ⟨n, hn, _, hfr⟩, htold⟩ | ⟨_, hne, _⟩
    · omega
    · rw [hfr]
      exact ⟨fun hf => hbehind hf n hn, fun _ => htold⟩
    · exact absurd rfl hne
  · rw [hspan_congr hsz] at hlayn
    have hposn := n.span_pos
    rcases hold hlayn with ⟨heq, _⟩ | ⟨heq, _⟩ | ⟨_, _, hlayn'⟩
    · omega
    · omega
    rw [hfr]
    exact ⟨ht.apart hn hlayn', fun _ => ht.prev (fun hx => by have := hH _ hx; omega) hn hlayn'⟩
  have hnH : ¬H x := fun hx => hxo (hH x hx)
  rcases hold hlayn with ⟨heq, rfl⟩ | ⟨heq, _⟩ | ⟨_, _, hlayn'⟩
  · refine ⟨fun hf => ?_, fun _ => ?_⟩
    · rw [Bool.eq_false_iff]
      intro hf'
      rw [hbefore hf' x hx hlay' heq] at hf
      cases hf
    rw [hpf, hprev]
    rw [← heq] at ho
    exact ht.prev hnH hlay' ho
  · exact absurd (ht.eq_of_end hlay' ho heq) hxo
  · exact ⟨ht.apart hlay' hlayn', fun _ => ht.prev hnH hlay' hlayn'⟩

/-- The size of a block that is in use is rounded up. -/
theorem Tiles.resize (ht : Tiles lay fun _ => False) (ho : lay o = some h)
    (hused : h.free = false) :
    Tiles (update lay o (some { h with size := ALIGN h.size XV_ALIGN })) fun _ => False := by
  have hspan : ({ h with size := ALIGN h.size XV_ALIGN } : Hdr).span = h.span := by
    show ALIGN (ALIGN h.size XV_ALIGN) XV_ALIGN + XV_ALIGN = ALIGN h.size XV_ALIGN + XV_ALIGN
    rw [ALIGN_four, ALIGN_four]
    omega
  have hnot : ¬h.free = true := Bool.eq_false_iff.mp hused
  refine ht.settle (fun _ hx => absurd hx id) ho hspan rfl rfl (fun hf => absurd hf hnot)
    (fun hf => absurd hf hnot) (fun hf => absurd hf hnot) (update_self _ _ _) ?_ ?_
  · intro n hn
    have hpos := h.span_pos
    have hprev := ht.prev id ho hn
    refine ⟨n, ?_, rfl, rfl, hprev.1, hprev.2⟩
    rw [update_of_ne (by omega)]
    exact hn
  intro x hx _
  exact update_of_ne hx _ _

/-- A page with one free block. -/
theorem Tiles.single {size : Nat} (hsize : size + 4 = PAGE_SIZE) :
    Tiles (update (fun _ => none) 0 (some ⟨size, true, false, 0⟩)) fun _ => False := by
  have hal : size % 4 = 0 := by
    unfold PAGE_SIZE at hsize
    omega
  have hspan : (⟨size, true, false, 0⟩ : Hdr).span = PAGE_SIZE := by
    rw [Hdr.span_of_aligned hal]
    exact hsize
  have hold : ∀ {x : Nat} {hx : Hdr},
      update (fun _ => none) 0 (some ⟨size, true, false, 0⟩) x = some hx →
      x = 0 ∧ hx = ⟨size, true, false, 0⟩ := by
    intro x hx hlay
    rcases update_eq_some hlay with hset | ⟨_, hlay⟩
    · exact hset
    · cases hlay
  have hspans : spans (update (fun _ => none) 0 (some ⟨size, true, false, 0⟩)) =
      update (fun _ => none) 0 (some PAGE_SIZE) := by
    rw [spans_update]
    exact congrArg (update (fun _ => none) 0) (congrArg some hspan)
  refine .of_blocks ?_ ?_ ?_
  · rw [hspans]
    exact Tiling.single (by decide)
  · intro x hx hlay
    obtain ⟨rfl, rfl⟩ := hold hlay
    exact ⟨rfl, fun _ => rfl, fun _ => hal⟩
  intro x hx hy hlay hlayn
  have hpos := hx.span_pos
  have hzero := (hold hlayn).1
  omega

/-! ## The words of a block -/

/-- The word is one of the block that starts at `o`. -/
def InTile (lay : Layout) (o w : Nat) : Prop :=
  ∃ h, lay o = some h ∧ o / 4 ≤ w ∧ w < (o + h.span) / 4

theorem header_inTile (ho : lay o = some h) : InTile lay o (o / 4) := by
  have hpos := h.span_pos
  exact ⟨h, ho, Nat.le_refl _, by omega⟩

/-- A word is in one block only. -/
theorem Tiles.inTile_unique (ht : Tiles lay H) {w : Nat} (ho : InTile lay o w)
    (ho' : InTile lay o' w) : o = o' := by
  obtain ⟨h, ho, hlo, hhi⟩ := ho
  obtain ⟨h', ho', hlo', hhi'⟩ := ho'
  by_contra hne
  have hor := ht.disjoint ho ho' hne
  omega

end tiles

end Nubernel.Xvmalloc
