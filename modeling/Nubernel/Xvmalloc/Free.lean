import Nubernel.Xvmalloc.Pool

/-! # xvmalloc: freeing

`xv_free` keeps what holds of a pool: the block is merged with its free
neighbours and becomes free itself, or its page is given back.
-/

open Function

namespace Nubernel.Xvmalloc

section rep
variable {s : State} {lay : Nat → Layout} {L : Nat → List Addr} {H U : Addr → Prop}

/-! ## Merging -/

variable {p o sz : Nat} {h h' : Hdr} {layp : Layout}

/-- One header is written, and its page is divided otherwise. -/
theorem Rep.rewrite {H' U' : Addr → Prop} {mem' : Mem} (hrep : Rep s lay L H U) (hp : p ∈ s.pages)
    (ho : lay p o = some h) (hw : Writes s.mem mem' (p, o) h')
    (hlayp : ∀ x hx, layp x = some hx → x = o ∧ hx = h' ∨ x ≠ o ∧ lay p x = some hx)
    (htiles : Tiles layp fun o => H' (p, o)) (hH : ∀ q o, q ≠ p → H (q, o) → H' (q, o))
    (hcoupled : ∀ i x, i < NUM_FREE_LISTS →
      (x ∈ L i ↔ Belongs s.pages (update lay p layp) i x ∧ ¬U' x)) :
    Rep { s with mem := mem' } (update lay p layp) L H' U' := by
  have hsame : ∀ q x hx, lay q x = some hx → (q, x) ≠ (p, o) →
      hdr mem' (q, x) = hdr s.mem (q, x) := by
    intro q x hx hlay hne
    exact hw.other (hrep.header_ne hp ((hrep.tiles p hp).aligned ho) hlay hne)
  refine hrep.assemble rfl rfl (hrep.write_header hp ho hw.frame) ?_ ?_ htiles hH hcoupled
  · intro q x hx hq hqp hlay
    exact hsame q x hx hlay fun heq => hqp (congrArg Prod.fst heq)
  intro x hx hlay
  rcases hlayp x hx hlay with ⟨rfl, rfl⟩ | ⟨hxo, hlay⟩
  · exact hw.hdr
  rw [hsame p x hx hlay fun heq => hxo (congrArg Prod.snd heq)]
  exact hrep.heads p x hx hp hlay

/-- The size of a block in use is rounded up. -/
theorem Rep.round (hrep : Rep s lay L (fun _ => False) fun _ => False) (hp : p ∈ s.pages)
    (ho : lay p o = some h) (hused : h.free = false) :
    Rep { s with mem := set_size s.mem (p, o) (ALIGN (size s.mem (p, o)) XV_ALIGN) }
      (update lay p
        (update (lay p) o (some { h with size := ALIGN h.size XV_ALIGN })))
      L (fun _ => False) fun _ => False := by
  have htiles := hrep.tiles p hp
  have hmax := htiles.size_le ho
  have hhdr := hrep.heads p o h hp ho
  have hlt : ALIGN (size s.mem (p, o)) XV_ALIGN < 2 ^ 16 := by
    rw [size_eq, hhdr, ALIGN_four]
    omega
  have hw := @set_size_writes s.mem ((p, o)) _ hlt
  rw [hhdr, size_eq, hhdr] at hw
  rw [size_eq, hhdr]
  refine hrep.rewrite hp ho hw (fun x hx => Tiling.update_eq_some) (htiles.resize ho hused)
    (fun _ _ _ hx => hx) ?_
  intro i x hi
  rw [hrep.coupled i x hi]
  by_cases hx : x = (p, o)
  · subst hx
    rw [belongs_of_block ho, belongs_of_block (by rw [update_self, update_self]), hused]
    simp
  rw [belongs_cell hx, update_eq_self]

section
variable (hrep : Rep s lay L H U) (hp : p ∈ s.pages) (ho : lay p o = some h)
include hrep hp ho

/-- **Two neighbours are merged** that are in no list. -/
theorem Rep.merge (he : lay p (o + h.span) = some h') (hsize : h.size % 4 = 0)
    (hsize' : h'.size % 4 = 0)
    (hnext : h.free = true → ∀ n, lay p (o + h.span + h'.span) = some n → n.free = false)
    (hU : h.free = true → U (p, o)) (hU' : h'.free = true → U (p, o + h.span))
    (hUonly : ∀ x, U x → x = (p, o) ∨ x = (p, o + h.span))
    (hsz : sz = h.size + (h'.size + XV_ALIGN)) :
    Rep { s with mem := set_size s.mem (p, o) sz }
      (update lay p (update (update (lay p) (o + h.span) none) o
        (some { h with size := h.size + (h'.size + XV_ALIGN) })))
      L (fun x => x = (p, o) ∨ H x) fun x => x = (p, o) := by
  have htiles := hrep.tiles p hp
  have hspan := Hdr.span_of_aligned hsize
  have hspan' := Hdr.span_of_aligned hsize'
  have hin := htiles.inside he
  have hlt : sz < 2 ^ 16 := by
    unfold PAGE_SIZE at hin
    unfold XV_ALIGN at hsz
    omega
  have hw := @set_size_writes s.mem ((p, o)) _ hlt
  rw [hrep.heads p o h hp ho, hsz] at hw
  rw [hsz]
  have hnotb : ∀ i, ¬(Belongs s.pages lay i (p, o) ∧ ¬U (p, o)) := by
    rintro i ⟨hb, hnot⟩
    exact hnot (hU ((belongs_of_block ho).mp hb).2.1)
  have hnote : ∀ i, ¬(Belongs s.pages lay i (p, o + h.span) ∧ ¬U (p, o + h.span)) := by
    rintro i ⟨hb, hnot⟩
    exact hnot (hU' ((belongs_of_block he).mp hb).2.1)
  refine hrep.rewrite hp ho hw ?_ ?_ ?_ ?_
  · intro x hx hlay
    exact (Tiling.update_none_eq_some hlay).imp_right fun hx => ⟨hx.1, hx.2.2⟩
  · refine (htiles.merge ho he hsize hsize' hnext).weaken ?_
    rintro x _ _ (rfl | hx)
    · exact .inl rfl
    · exact .inr hx
  · intro q x _ hx
    exact .inr hx
  intro i x hi
  rw [hrep.coupled i x hi]
  by_cases hxo : x = (p, o)
  · subst hxo
    exact iff_of_false (hnotb i) fun hb => hb.2 rfl
  by_cases hxe : x = (p, o + h.span)
  · subst hxe
    refine iff_of_false (hnote i) fun hb => not_belongs ?_ hb.1
    intro n hn
    rw [update_cell hxo, update_self, update_self] at hn
    cases hn
  have hnotU : ¬U x := fun hx => (hUonly x hx).elim hxo hxe
  rw [and_iff_left hnotU, and_iff_left hxo, belongs_cell hxo, belongs_cell hxe, update_eq_self]

/-- A free block is taken out of its list, if it is large enough to be in one. -/
theorem Rep.remove_free (hfree : h.free = true) (hU : ¬U (p, o)) {s' : State}
    (hs' : s' = if size s.mem (p, o) ≥ XV_MIN_ALLOC_SIZE then
      remove_block s p o (p, o) (get_index_for_insert (size s.mem (p, o))) else s) :
    ∃ L', Rep s' lay L' H (fun x => U x ∨ x = (p, o)) ∧ s'.pages = s.pages := by
  rw [size_eq, hrep.heads p o h hp ho] at hs'
  have hmax := (hrep.tiles p hp).size_le ho
  by_cases hmin : h.size ≥ XV_MIN_ALLOC_SIZE
  · rw [if_pos hmin] at hs'
    have hi := get_index_for_insert_lt hmin hmax
    have hn : (p, o) ∈ L (get_index_for_insert h.size) :=
      (hrep.coupled _ _ hi).mpr ⟨⟨hp, h, ho, hfree, hmin, rfl⟩, hU⟩
    rw [hs']
    exact ⟨_, hrep.remove hi hn, (remove_block_pages (p, o) _).1⟩
  rw [if_neg hmin] at hs'
  rw [hs']
  refine ⟨L, hrep.weaken (fun _ _ _ _ _ hx => hx) ?_, rfl⟩
  intro i x hb
  refine (or_iff_left ?_).symm
  rintro rfl
  exact hmin ((belongs_of_block ho).mp hb).2.2.1

end

theorem behind_merged {n : Hdr} (hsize : h.size % 4 = 0) (hsize' : h'.size % 4 = 0)
    (hn : update (update layp (o + h.span) none) o
      (some { h with size := h.size + (h'.size + XV_ALIGN) })
      (o + ({ h with size := h.size + (h'.size + XV_ALIGN) } : Hdr).span) = some n) :
    layp (o + h.span + h'.span) = some n := by
  have hpos' := h'.span_pos
  rw [span_merged hsize hsize'] at hn
  rw [update_of_ne (by omega), update_of_ne (by omega)] at hn
  rw [Nat.add_assoc]
  exact hn

/-- Merging two neighbours changes nothing for the other blocks. -/
theorem used_merged {e q x : Nat} {g : Hdr} (hnote : ∀ sz, ¬Used lay p e sz)
    (hne : (q, x) ≠ (p, o)) :
    Used (update lay p (update (update (lay p) e none) o (some g)))
      q x sz ↔ Used lay q x sz := by
  rw [used_cell hne]
  by_cases hxe : (q, x) = (p, e)
  · cases hxe
    refine iff_of_false ?_ (hnote sz)
    rintro ⟨_, hlay, _⟩
    rw [update_self, update_self] at hlay
    cases hlay
  rw [used_cell hxe, update_eq_self]

/-- What holds of the block that is being freed. -/
structure Freeing (s : State) (p o : Nat) (h : Hdr) (s' : State) (lay' : Nat → Layout) :
    Prop where
  pages : s'.pages = s.pages
  block : lay' p o = some h
  size : h.size % 4 = 0
  behind : ∀ n, lay' p (o + h.span) = some n → n.free = false

/-- **"Merge next block if its free"**. -/
theorem Rep.merge_next (hrep : Rep s lay L (fun _ => False) fun _ => False) (hp : p ∈ s.pages)
    (ho : lay p o = some h) (hused : h.free = false) (hsize : h.size % 4 = 0) :
    ∃ lay' L' h', Rep (merge_next s p o) lay' L' (fun x => x = (p, o)) (fun x => x = (p, o)) ∧
      Freeing s p o h' (merge_next s p o) lay' ∧ h'.free = false ∧
      ∀ q x sz, (q, x) ≠ (p, o) → (Used lay' q x sz ↔ Used lay q x sz) := by
  have htiles := hrep.tiles p hp
  have hhdr := hrep.heads p o h hp ho
  have hspan := Hdr.span_of_aligned hsize
  have hend : o + size s.mem (p, o) + XV_ALIGN = o + h.span := by
    rw [size_eq, hhdr, hspan]
    rfl
  unfold Xvmalloc.merge_next
  simp only [BLOCK_NEXT, hend]
  by_cases hbehind : ∃ n, lay p (o + h.span) = some n ∧ n.free = true
  · obtain ⟨n, hn, hfree⟩ := hbehind
    have hlast : ¬o + h.span = PAGE_SIZE := by
      have hin := htiles.inside hn
      have hpos := n.span_pos
      omega
    rw [if_neg hlast, if_pos (by rw [test_flag_free, hrep.heads p _ n hp hn]; exact hfree)]
    obtain ⟨L₁, hrep₁, hpages⟩ := hrep.remove_free hp hn hfree (fun h => h) rfl
    generalize (if size s.mem (p, o + h.span) ≥ XV_MIN_ALLOC_SIZE then
      remove_block s p (o + h.span) (p, o + h.span)
        (get_index_for_insert (size s.mem (p, o + h.span))) else s) = s₁ at hrep₁ hpages ⊢
    rw [← hpages] at hp
    have hsz : size s₁.mem (p, o) + (size s₁.mem (p, o + h.span) + XV_ALIGN) =
        h.size + (n.size + XV_ALIGN) := by
      rw [size_eq, size_eq, hrep₁.heads p o h hp ho, hrep₁.heads p _ n hp hn]
    have hnsize := htiles.freeSize hn hfree
    have hmerge := hrep₁.merge hp ho hn hsize hnsize
      (fun hf => by rw [hused] at hf; cases hf) (fun hf => by rw [hused] at hf; cases hf)
      (fun _ => .inr rfl) (fun x hx => hx.elim (fun h => absurd h id) .inr) hsz
    refine ⟨_, L₁, { h with size := h.size + (n.size + XV_ALIGN) },
      hmerge.weaken (fun _ _ _ _ _ hx => hx.elim id fun h => absurd h id) (fun _ _ _ => Iff.rfl),
      ⟨hpages, ?_, ?_, ?_⟩, hused, ?_⟩
    · rw [update_self, update_self]
    · simp only
      unfold XV_ALIGN
      omega
    · intro n' hn'
      rw [update_self] at hn'
      exact htiles.apart hn (behind_merged hsize hnsize hn') hfree
    intro q x sz hne
    exact used_merged (not_used_of_free hn hfree) hne
  -- Nothing to merge.
  have hused' : ∀ n, lay p (o + h.span) = some n → n.free = false := by
    intro n hn
    exact Bool.eq_false_iff.mpr fun hfree => hbehind ⟨n, hn, hfree⟩
  rw [ite_eq_left_iff.mpr]
  · refine ⟨lay, L, h, hrep.weaken (fun _ _ _ _ _ hx => absurd hx id) ?_,
      ⟨rfl, ho, hsize, hused'⟩, hused, fun _ _ _ _ => Iff.rfl⟩
    intro i x hb
    refine ⟨fun h => absurd h id, ?_⟩
    rintro rfl
    rw [belongs_of_block ho, hused] at hb
    cases hb.2.1
  intro hlast
  obtain ⟨n, hn⟩ := htiles.next ho hlast
  rw [test_flag_free, hrep.heads p _ n hp hn, hused' n hn]
  rfl

/-- The blocks in use are the same, but for the one that is being freed. -/
def SameUsed (p : Nat) (lay : Nat → Layout) (o : Nat) (lay' : Nat → Layout) (o' : Nat) : Prop :=
  ∀ q x sz, Used lay' q x sz ∧ (q, x) ≠ (p, o') ↔ Used lay q x sz ∧ (q, x) ≠ (p, o)

/-- The block behind a block that becomes free. -/
theorem behind_writes {mem : Mem} {b : Addr} {o : Nat} (hal : o % 4 = 0) (hlt : o < 2 ^ 16) :
    Writes mem (set_blockprev (set_flag mem b .PREV_FREE) b o) b
      { hdr mem b with prevFree := true, prev := o } := by
  have h₁ := @set_prevFree_writes mem b
  have h₂ := @set_blockprev_writes (set_flag mem b .PREV_FREE) b _ hal hlt
  rw [h₁.hdr] at h₂
  exact h₁.trans h₂

section freed
variable {p o : Nat} {h : Hdr} (hrep : Rep s lay L (fun x => x = (p, o)) fun x => x = (p, o))
variable (hp : p ∈ s.pages) (ho : lay p o = some h)
include hrep hp ho

/-- **"Merge previous block if its free"**. -/
theorem Rep.merge_prev (hused : h.free = false) (hsize : h.size % 4 = 0)
    (hbehind : ∀ n, lay p (o + h.span) = some n → n.free = false) :
    ∃ s' lay' L' o' h', merge_prev s p o = (s', (p, o'), o') ∧
      Rep s' lay' L' (fun x => x = (p, o')) (fun x => x = (p, o')) ∧
      Freeing s p o' h' s' lay' ∧
      (∀ x hx, lay' p x = some hx → x + hx.span = o' → hx.free = false) ∧
      SameUsed p lay o lay' o' := by
  have htiles := hrep.tiles p hp
  have hhdr := hrep.heads p o h hp ho
  have hprevious : ∀ x hx, lay p x = some hx → x + hx.span = o → h.prevFree = hx.free ∧
      (hx.free = true → h.prev = x) := by
    rintro x hx hlay rfl
    have hpos := hx.span_pos
    refine htiles.prev ?_ hlay ho
    intro heq
    have := congrArg Prod.snd heq
    omega
  by_cases hpf : h.prevFree = true
  · have hne0 : o ≠ 0 := by
      rintro rfl
      rw [htiles.first ho] at hpf
      cases hpf
    obtain ⟨o', g, hg, hend⟩ := htiles.pred ho hne0
    obtain ⟨hfree, hprev⟩ := hprevious o' g hg hend
    rw [hpf] at hfree
    have hgsize := htiles.freeSize hg hfree.symm
    have hgspan := Hdr.span_of_aligned hgsize
    have hin := htiles.inside ho
    have hne : o' ≠ o := by omega
    obtain ⟨L₁, hrep₁, hpages⟩ := hrep.remove_free hp hg hfree.symm
      (fun heq => hne (congrArg Prod.snd heq)) rfl
    unfold Xvmalloc.merge_prev
    have hoff : sub32 (sub32 o (size s.mem (p, o'))) XV_ALIGN = o' := by
      rw [size_eq, hrep.heads p o' g hp hg]
      unfold XV_ALIGN
      unfold PAGE_SIZE at hin
      rw [sub32_eq (a := o) (by omega) (by omega), sub32_eq (by omega) (by omega)]
      omega
    simp only [test_flag_prev, hhdr, hpf, if_true, get_blockprev_eq, hprev hfree.symm, hoff]
    generalize (if size s.mem (p, o') ≥ XV_MIN_ALLOC_SIZE then
      remove_block s p o' (p, o') (get_index_for_insert (size s.mem (p, o'))) else s) = s₁
      at hrep₁ hpages ⊢
    rw [← hpages] at hp
    have hsz : size s₁.mem (p, o') + (size s₁.mem (p, o) + XV_ALIGN) =
        g.size + (h.size + XV_ALIGN) := by
      rw [size_eq, size_eq, hrep₁.heads p o' g hp hg, hrep₁.heads p o h hp ho]
    subst hend
    have hmerge := hrep₁.merge hp hg ho hgsize hsize (fun _ => hbehind) (fun _ => .inr rfl)
      (fun hf => by rw [hused] at hf; cases hf) (fun x hx => hx.elim .inr .inl) hsz
    refine ⟨_, _, L₁, o', { g with size := g.size + (h.size + XV_ALIGN) }, rfl,
      hmerge.weaken ?_ (fun _ _ _ => Iff.rfl), ⟨hpages, ?_, ?_, ?_⟩, ?_, ?_⟩
    · rintro q x hx _ hlay (heq | heq)
      · exact heq
      cases heq
      rw [update_self, update_of_ne hne.symm, update_self] at hlay
      cases hlay
    · rw [update_self, update_self]
    · simp only
      unfold XV_ALIGN
      omega
    · intro n hn
      rw [update_self] at hn
      exact hbehind n (behind_merged hgsize hsize hn)
    · intro x hx hlay hend
      have hposx := hx.span_pos
      rw [update_self, update_of_ne (by omega), update_of_ne (by omega)] at hlay
      by_contra hxf
      have hfalse := htiles.apart hlay (by rw [hend]; exact hg) (Bool.eq_true_of_not_eq_false hxf)
      rw [← hfree] at hfalse
      cases hfalse
    intro q x sz
    by_cases hxo : (q, x) = (p, o' + g.span)
    · cases hxo
      constructor
      · rintro ⟨⟨hx, hlay, _⟩, _⟩
        rw [update_self, update_of_ne hne.symm, update_self] at hlay
        cases hlay
      rintro ⟨_, hnot⟩
      exact absurd rfl hnot
    rw [and_iff_left hxo]
    by_cases hxo' : (q, x) = (p, o')
    · cases hxo'
      constructor
      · rintro ⟨_, hnot⟩
        exact absurd rfl hnot
      intro hu
      exact absurd hu (not_used_of_free hg hfree.symm sz)
    rw [and_iff_left hxo', used_cell hxo', used_cell hxo, update_eq_self]
  refine ⟨s, lay, L, o, h, ?_, hrep, ⟨rfl, ho, hsize, hbehind⟩, ?_, fun _ _ _ => Iff.rfl⟩
  · unfold Xvmalloc.merge_prev
    simp only [test_flag_prev, hhdr]
    rw [if_neg hpf]
  intro x hx hlay hend
  rw [← (hprevious x hx hlay hend).1]
  exact Bool.eq_false_iff.mpr hpf

/-! ## Giving back -/

/-- **A page with no block in use** is given back. -/
theorem Rep.free_page (hsize : h.size = 4092) :
    Rep (put_block s p (p, o) o) lay L (fun _ => False) (fun _ => False) ∧
      (put_block s p (p, o) o).pages = s.pages.erase p ∧ ∀ x hx, lay p x = some hx → x = o := by
  have htiles := hrep.tiles p hp
  have hput : put_block s p (p, o) o = { s with
      pages := s.pages.erase p
      pool := { s.pool with total_pages := sub64 s.pool.total_pages 1 } } := by
    unfold put_block
    rw [size_eq, hrep.heads p o h hp ho, if_pos (show h.size = PAGE_SIZE - XV_ALIGN from hsize)]
  have hmem : ∀ q, q ∈ s.pages.erase p ↔ q ≠ p ∧ q ∈ s.pages := fun q =>
    hrep.nodup.mem_erase_iff
  have hspan : h.span = PAGE_SIZE := by
    rw [Hdr.span_eq, hsize]
    rfl
  have hin := htiles.inside ho
  -- The block is all of the page.
  have honly : ∀ x hx, lay p x = some hx → x = o := by
    intro x hx hlay
    have hinx := htiles.inside hlay
    have hposx := hx.span_pos
    by_contra hne
    have hor := htiles.disjoint hlay ho hne
    omega
  rw [hput]
  refine ⟨⟨?_, ?_, hrep.lists.of_pool, ?_, ?_, hrep.nodup.erase p, ?_⟩, rfl, honly⟩
  · intro q x hx hq hlay
    exact hrep.heads q x hx ((hmem q).mp hq).2 hlay
  · intro q hq
    refine (hrep.tiles q ((hmem q).mp hq).2).weaken ?_
    intro x hx _ heq
    exact ((hmem q).mp hq).1 (congrArg Prod.fst heq)
  · intro i x hi
    rw [hrep.coupled i x hi, and_iff_left (fun h => h)]
    constructor
    · rintro ⟨⟨hq, hx, hlay, hrest⟩, hne⟩
      refine ⟨(hmem x.1).mpr ⟨?_, hq⟩, hx, hlay, hrest⟩
      intro hqp
      obtain ⟨q, y⟩ := x
      obtain rfl : q = p := hqp
      exact hne (by rw [honly y hx hlay])
    rintro ⟨hq, hrest⟩
    refine ⟨⟨((hmem x.1).mp hq).2, hrest⟩, ?_⟩
    rintro rfl
    exact ((hmem p).mp hq).1 rfl
  · intro q hq
    exact hrep.nonzero q ((hmem q).mp hq).2
  show sub64 s.pool.total_pages 1 = (s.pages.erase p).length % 2 ^ 64
  have hlen := List.length_pos_of_mem hp
  rw [hrep.total, List.length_erase_of_mem hp]
  unfold sub64
  omega

/-- **A block becomes free.** -/
theorem Rep.free_block (hal : h.size % 4 = 0) (hsize : h.size ≠ 4092)
    (hbefore : ∀ x hx, lay p x = some hx → x + hx.span = o → hx.free = false)
    (hbehind : ∀ n, lay p (o + h.span) = some n → n.free = false) :
    ∃ L', Rep (put_block s p (p, o) o) (update lay p (told (lay p) o
        { h with free := true } (o + h.span) fun n => { n with prevFree := true, prev := o })) L'
      (fun _ => False) (fun _ => False) ∧ (put_block s p (p, o) o).pages = s.pages := by
  have htiles := hrep.tiles p hp
  have hhdr := hrep.heads p o h hp ho
  have hspan := Hdr.span_of_aligned hal
  have hin := htiles.inside ho
  have halo := htiles.aligned ho
  have hw := @set_free_writes s.mem ((p, o))
  rw [hhdr] at hw
  have hsz : size (set_flag s.mem (p, o) .BLOCK_FREE) (p, o) = h.size := by rw [size_eq, hw.hdr]
  have hlists : FreeLists s.pool (set_flag s.mem (p, o) .BLOCK_FREE) L :=
    hrep.write_header hp ho hw.frame
  obtain ⟨L', hL', hpages, htotal, hkeep⟩ := hrep.list_block
    (t := { s with mem := set_flag s.mem (p, o) .BLOCK_FREE }) hp ho hal hlists hsz rfl
  generalize ht : (if size (set_flag s.mem (p, o) .BLOCK_FREE) (p, o) ≥ XV_MIN_ALLOC_SIZE then
    insert_block { s with mem := set_flag s.mem (p, o) .BLOCK_FREE } p o (p, o)
    else { s with mem := set_flag s.mem (p, o) .BLOCK_FREE }) = t at hL' hpages htotal hkeep
  have hto : hdr t.mem (p, o) = { h with free := true } := by
    rw [hkeep p o h hp ho]
    exact hw.hdr
  have hend : o + size t.mem (p, o) + XV_ALIGN = o + h.span := by
    rw [size_eq, hto, hspan]
    rfl
  have hput : put_block s p (p, o) o = if o + h.span ≠ PAGE_SIZE then { t with
      mem := set_blockprev (set_flag t.mem (p, o + h.span) .PREV_FREE) (p, o + h.span) o }
      else t := by
    unfold put_block
    rw [size_eq, hhdr, if_neg (show ¬h.size = PAGE_SIZE - XV_ALIGN from hsize)]
    simp [ht, hend, BLOCK_NEXT]
  have hother : ∀ q x hx, q ∈ s.pages → lay q x = some hx → (q, x) ≠ (p, o) →
      hdr t.mem (q, x) = hdr s.mem (q, x) := by
    intro q x hx hq hlay hne
    rw [hkeep q x hx hq hlay]
    exact hw.other (hrep.header_ne hp (htiles.aligned ho) hlay hne)
  have htell : Tells lay p (o + h.span) (fun n => { n with prevFree := true, prev := o }) t
      (put_block s p (p, o) o) := by
    refine hrep.tell hp ho ?_ hput
    intro n hn
    have hwn := @behind_writes t.mem ((p, o + h.span)) _ halo (by unfold PAGE_SIZE at hin; omega)
    have hneo : (p, o + h.span) ≠ (p, o) := by
      intro heq
      have := congrArg Prod.snd heq
      omega
    rw [hother p _ n hp hn hneo, hrep.heads p _ n hp hn] at hwn
    exact hwn
  refine ⟨L', hrep.settled (fun _ hx => hx) (htell.pages.trans hpages) ?_ hp ho rfl rfl rfl
    (fun _ => hal) (fun _ => hbefore) (fun _ => hbehind) (fun _ => rfl) (fun _ => rfl) ?_ ?_ ?_
    htell.hdr ?_ ?_, htell.pages.trans hpages⟩
  · rw [htell.pool]
    exact htotal
  · intro n hn
    exact ⟨rfl, fun _ => rfl⟩
  · exact hL'.lists.told (fun x hx y n => hL'.noHeader x hx p y n hp) htell
  · rw [htell.other fun _ => by omega]
    exact hto
  · intro q x hx hq hlay hne hne'
    rw [htell.other (hrep.header_ne hp (by omega) hlay hne'), hother q x hx hq hlay hne]
  intro i x hi
  rw [hL'.coupled i x hi]
  simp

end freed

/-- **`xv_free`** of a block in use. -/
theorem Rep.free (hrep : Rep s lay L (fun _ => False) fun _ => False) (hp : p ∈ s.pages)
    (hobj : Used lay p o sz) :
    ∃ s' lay' L', xv_free s p (o + XV_ALIGN) = some s' ∧
      Rep s' lay' L' (fun _ => False) (fun _ => False) ∧ (∀ q, q ∈ s'.pages → q ∈ s.pages) ∧
      (∀ q x sz, q ∈ s.pages → (q, x) ≠ (p, o) → Used lay q x sz → q ∈ s'.pages) ∧
      ∀ q x sz, q ∈ s'.pages → (Used lay' q x sz ↔ Used lay q x sz ∧ (q, x) ≠ (p, o)) := by
  obtain ⟨h, ho, hused, rfl⟩ := hobj
  have htiles := hrep.tiles p hp
  have hhdr := hrep.heads p o h hp ho
  have hin := htiles.inside ho
  unfold PAGE_SIZE at hin
  have hoff : sub32 (o + XV_ALIGN) XV_ALIGN = o := by
    unfold XV_ALIGN
    rw [sub32_eq (by omega) (by omega)]
    omega
  have hal : ({ h with size := ALIGN h.size XV_ALIGN } : Hdr).size % 4 = 0 := by
    show ALIGN h.size XV_ALIGN % 4 = 0
    rw [ALIGN_four]
    omega
  have hround := hrep.round hp ho hused
  have hpages₁ : (⟨s.pool, set_size s.mem (p, o) (ALIGN (size s.mem (p, o)) XV_ALIGN), s.pages⟩ :
      State).pages = s.pages := rfl
  unfold xv_free
  generalize sub32 (o + XV_ALIGN) XV_ALIGN = offset at hoff ⊢
  subst offset
  simp only [test_flag_free, hhdr, hused, Bool.false_eq_true, if_false]
  rw [← hpages₁] at hp
  have ho₁ : update lay p (update (lay p) o (some { h with size := ALIGN h.size XV_ALIGN })) p o =
      some { h with size := ALIGN h.size XV_ALIGN } := by
    rw [update_self, update_self]
  obtain ⟨lay₂, L₂, h₂, hrep₂, hfreeing₂, hused₂, hsame₂⟩ := hround.merge_next hp ho₁ hused hal
  rw [← hfreeing₂.pages] at hp
  obtain ⟨s₃, lay₃, L₃, o', h₃, heq₃, hrep₃, hfreeing₃, hbefore₃, hsame₃⟩ := hrep₂.merge_prev hp
    hfreeing₂.block hused₂ hfreeing₂.size hfreeing₂.behind
  rw [← hfreeing₃.pages] at hp
  have hpages : s₃.pages = s.pages := by
    rw [hfreeing₃.pages, hfreeing₂.pages, hpages₁]
  have hall : ∀ q x sz, Used lay₃ q x sz ∧ (q, x) ≠ (p, o') ↔ Used lay q x sz ∧ (q, x) ≠ (p, o) := by
    intro q x sz
    rw [hsame₃ q x sz]
    refine and_congr_left fun hne => ?_
    rw [hsame₂ q x sz hne, used_cell hne, update_eq_self]
  simp only [heq₃]
  by_cases hsize : h₃.size = 4092
  · obtain ⟨hrep₄, hpages₄, honly⟩ := hrep₃.free_page hp hfreeing₃.block hsize
    have hmem : ∀ q, q ∈ s₃.pages.erase p ↔ q ≠ p ∧ q ∈ s₃.pages := fun q =>
      hrep₃.nodup.mem_erase_iff
    refine ⟨_, lay₃, L₃, rfl, hrep₄, ?_, ?_, ?_⟩
    · intro q hq
      rw [hpages₄] at hq
      rw [← hpages]
      exact ((hmem q).mp hq).2
    · intro q x sz hq hne hu
      rw [hpages₄]
      refine (hmem q).mpr ⟨?_, by rw [hpages]; exact hq⟩
      rintro rfl
      obtain ⟨⟨hx, hlay, _⟩, hne'⟩ := (hall q x sz).mpr ⟨hu, hne⟩
      exact hne' (by rw [honly x hx hlay])
    intro q x sz hq
    rw [hpages₄] at hq
    rw [← hall q x sz, and_iff_left]
    intro heq
    exact ((hmem q).mp hq).1 (congrArg Prod.fst heq)
  obtain ⟨L₄, hrep₄, hpages₄⟩ := hrep₃.free_block hp hfreeing₃.block hfreeing₃.size hsize
    hbefore₃ hfreeing₃.behind
  refine ⟨_, _, L₄, rfl, hrep₄, ?_, ?_, ?_⟩
  · intro q hq
    rw [hpages₄, hpages] at hq
    exact hq
  · intro q x sz hq _ _
    rw [hpages₄, hpages]
    exact hq
  intro q x sz _
  rw [← hall q x sz, used_told, used_self]
  rotate_left
  · exact fun _ => rfl
  · exact fun _ => rfl
  by_cases hqx : (q, x) = (p, o')
  · rw [if_pos hqx]
    constructor
    · rintro ⟨hf, _⟩
      cases hf
    rintro ⟨_, hnot⟩
    exact absurd hqx hnot
  rw [if_neg hqx, and_iff_left hqx]

end rep

end Nubernel.Xvmalloc
