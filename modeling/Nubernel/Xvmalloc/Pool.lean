import Nubernel.Xvmalloc.Layout

/-! # xvmalloc: pools

What holds of a pool between two calls (`Rep`): each page is divided into
blocks whose headers are in memory, and the free lists hold the free blocks
that are large enough.

While a call is at work some of it does not hold: of the block in `U` it does
not matter whether it is in a list, and the block behind one in `H` may have
wrong ideas about it.
-/

open Function Option

namespace Nubernel.Xvmalloc

/-! ## What holds of a pool -/

/-- The block at `x` belongs into list `i`. -/
def Belongs (pages : List Nat) (lay : Nat → Layout) (i : Nat) (x : Addr) : Prop :=
  x.1 ∈ pages ∧ ∃ h, lay x.1 x.2 = some h ∧ h.free = true ∧ XV_MIN_ALLOC_SIZE ≤ h.size ∧
    get_index_for_insert h.size = i

structure Rep (s : State) (lay : Nat → Layout) (L : Nat → List Addr) (H U : Addr → Prop) :
    Prop where
  heads : ∀ p o h, p ∈ s.pages → lay p o = some h → hdr s.mem (p, o) = h
  tiles : ∀ p, p ∈ s.pages → Tiles (lay p) fun o => H (p, o)
  lists : FreeLists s.pool s.mem L
  coupled : ∀ i x, i < NUM_FREE_LISTS → (x ∈ L i ↔ Belongs s.pages lay i x ∧ ¬U x)
  nonzero : ∀ p, p ∈ s.pages → p ≠ 0
  nodup : s.pages.Nodup
  total : s.pool.total_pages = s.pages.length % 2 ^ 64

/-- The list for a size. -/
theorem get_index_for_insert_eq {size : Nat} (hmin : XV_MIN_ALLOC_SIZE ≤ size) (hmax : size ≤ 4092) :
    get_index_for_insert size = (size - 32) / 8 := by
  unfold XV_MIN_ALLOC_SIZE at hmin
  have hle : ¬size > XV_MAX_ALLOC_SIZE := by
    show ¬size > 4092
    omega
  unfold get_index_for_insert
  simp only [if_neg hle]
  show sub32 (size / 8 * 8) 32 >>> 3 = (size - 32) / 8
  rw [sub32_eq (by omega) (by omega), Nat.shiftRight_eq_div_pow]
  omega

theorem get_index_for_insert_lt {size : Nat} (hmin : XV_MIN_ALLOC_SIZE ≤ size)
    (hmax : size ≤ 4092) : get_index_for_insert size < NUM_FREE_LISTS := by
  rw [get_index_for_insert_eq hmin hmax]
  show (size - 32) / 8 < 508
  omega

theorem get_index_eq {size : Nat} (hmax : size ≤ 4092) :
    get_index size = ((max size 32 + 7) / 8 * 8 - 32) / 8 := by
  have hsize : (if size < XV_MIN_ALLOC_SIZE then XV_MIN_ALLOC_SIZE else size) = max size 32 := by
    unfold XV_MIN_ALLOC_SIZE
    split <;> omega
  unfold get_index
  simp only [hsize]
  show sub32 ((max size 32 + 7) / 8 * 8) 32 >>> 3 = _
  rw [sub32_eq (by omega) (by omega), Nat.shiftRight_eq_div_pow]

/-- The blocks of a list that `find_block` considers are large enough. -/
theorem size_of_index {size bsize : Nat} (hmax : size ≤ 4092) (hmin : XV_MIN_ALLOC_SIZE ≤ bsize)
    (hbmax : bsize ≤ 4092) (hindex : get_index size ≤ get_index_for_insert bsize) :
    size ≤ bsize := by
  rw [get_index_eq hmax, get_index_for_insert_eq hmin hbmax] at hindex
  unfold XV_MIN_ALLOC_SIZE at hmin
  omega

section rep
variable {s : State} {lay : Nat → Layout} {L : Nat → List Addr} {H U : Addr → Prop}

theorem Rep.weaken {H' U' : Addr → Prop} (hrep : Rep s lay L H U)
    (hH : ∀ p o h, p ∈ s.pages → lay p o = some h → H (p, o) → H' (p, o))
    (hU : ∀ i x, Belongs s.pages lay i x → (U x ↔ U' x)) : Rep s lay L H' U' := by
  refine ⟨hrep.heads, fun p hp => (hrep.tiles p hp).weaken fun o h => hH p o h hp, hrep.lists, ?_,
    hrep.nonzero, hrep.nodup, hrep.total⟩
  intro i x hi
  rw [hrep.coupled i x hi]
  constructor
  · rintro ⟨hb, hnot⟩
    exact ⟨hb, fun hx => hnot ((hU i x hb).mpr hx)⟩
  rintro ⟨hb, hnot⟩
  exact ⟨hb, fun hx => hnot ((hU i x hb).mp hx)⟩

section
variable {x : Addr}
variable (hrep : Rep s lay L H U) (hx : Listed L x)
include hrep hx

/-- A block in a list. -/
theorem Rep.of_listed :
    x.1 ∈ s.pages ∧ ∃ h, lay x.1 x.2 = some h ∧ h.free = true ∧ XV_MIN_ALLOC_SIZE ≤ h.size ∧
      ¬U x := by
  obtain ⟨i, hi, hx⟩ := hx
  obtain ⟨⟨hp, h, hlay, hfree, hmin, _⟩, hU⟩ := (hrep.coupled i x hi).mp hx
  exact ⟨hp, h, hlay, hfree, hmin, hU⟩

/-- The links of a block in a list are words of this block. -/
theorem Rep.link_inTile {page w : Nat}
    (hw : LinkWord x page w) : page = x.1 ∧ InTile (lay x.1) x.2 w ∧ w ≠ x.2 / 4 := by
  obtain ⟨hp, h, hlay, hfree, hmin, _⟩ := hrep.of_listed hx
  obtain ⟨rfl, hlo, hhi⟩ := hw
  have hspan := h.span_eq
  unfold XV_MIN_ALLOC_SIZE at hmin
  exact ⟨rfl, ⟨h, hlay, by omega, by omega⟩, by omega⟩

/-- A word of another block, or the header of the block, is no link. -/
theorem Rep.not_link {p o w : Nat} (hw : InTile (lay p) o w)
    (hne : x = (p, o) → w = o / 4) : ¬LinkWord x p w := by
  intro hlink
  obtain ⟨rfl, hin, hnot⟩ := hrep.link_inTile hx hlink
  have hp := (hrep.of_listed hx).1
  have heq := (hrep.tiles _ hp).inTile_unique hin hw
  apply hnot
  rw [heq]
  refine hne ?_
  rw [← heq]

theorem Rep.header_not_link {p o : Nat} {h : Hdr} (ho : lay p o = some h) :
    ¬LinkWord x p (o / 4) :=
  hrep.not_link hx (header_inTile ho) fun _ => rfl

end

variable {p o q x i e : Nat} {layp : Layout} {v : Option Hdr} {pages : List Nat} {h' : Hdr}
variable {f : Hdr → Hdr}

/-- A header is in another word than what is at another place. -/
theorem Rep.header_ne (hrep : Rep s lay L H U) {hx : Hdr} (hp : p ∈ s.pages) (hal : o % 4 = 0)
    (hlay : lay q x = some hx) (hne : (q, x) ≠ (p, o)) (hq : q = p) :
    x / 4 ≠ o / 4 := by
  subst hq
  have halx := (hrep.tiles q hp).aligned hlay
  intro heq
  exact hne (by rw [show x = o by omega])

/-- A header whose word has not changed. -/
theorem hdr_congr {mem mem' : Mem} {b : Addr} (hsame : mem' b.1 (b.2 / 4) = mem b.1 (b.2 / 4)) :
    hdr mem' b = hdr mem b := by
  unfold hdr Mem.word
  rw [Nat.add_zero, hsame]

/-- One page is divided otherwise. -/
theorem Rep.assemble {H' U' : Addr → Prop} {s' : State} {L' : Nat → List Addr}
    (hrep : Rep s lay L H U) (hpages : s'.pages = s.pages)
    (htotal : s'.pool.total_pages = s.pool.total_pages) (hlists : FreeLists s'.pool s'.mem L')
    (hothers : ∀ q o h, q ∈ s.pages → q ≠ p → lay q o = some h →
      hdr s'.mem (q, o) = hdr s.mem (q, o))
    (hheads : ∀ o h, layp o = some h → hdr s'.mem (p, o) = h)
    (htiles : Tiles layp fun o => H' (p, o)) (hH : ∀ q o, q ≠ p → H (q, o) → H' (q, o))
    (hcoupled : ∀ i x, i < NUM_FREE_LISTS →
      (x ∈ L' i ↔ Belongs s.pages (update lay p layp) i x ∧ ¬U' x)) :
    Rep s' (update lay p layp) L' H' U' := by
  refine ⟨?_, ?_, hlists, ?_, ?_, ?_, ?_⟩
  · intro q o h hq hlay
    rw [hpages] at hq
    by_cases hqp : q = p
    · subst hqp
      rw [update_self] at hlay
      exact hheads o h hlay
    rw [update_of_ne hqp] at hlay
    rw [hothers q o h hq hqp hlay]
    exact hrep.heads q o h hq hlay
  · intro q hq
    rw [hpages] at hq
    by_cases hqp : q = p
    · subst hqp
      rw [update_self]
      exact htiles
    rw [update_of_ne hqp]
    exact (hrep.tiles q hq).weaken fun o _ _ => hH q o hqp
  · intro i x hi
    rw [hpages]
    exact hcoupled i x hi
  · rw [hpages]
    exact hrep.nonzero
  · rw [hpages]
    exact hrep.nodup
  rw [hpages, htotal]
  exact hrep.total

/-- A layout is changed in one place. -/
theorem update_cell (hne : (q, x) ≠ (p, o)) :
    update lay p (update layp o v) q x = update lay p layp q x := by
  by_cases hq : q = p
  · subst hq
    rw [update_self, update_self, update_of_ne fun heq => hne (by rw [heq])]
  rw [update_of_ne hq, update_of_ne hq]

theorem belongs_cell {x : Addr}
    (hne : x ≠ (p, o)) : Belongs pages (update lay p (update layp o v)) i x ↔
      Belongs pages (update lay p layp) i x := by
  unfold Belongs
  rw [update_cell hne]

theorem not_belongs {x : Addr}
    (hx : ∀ h, lay x.1 x.2 = some h → h.free = false) : ¬Belongs pages lay i x := by
  rintro ⟨_, h, hlay, hfree, _⟩
  rw [hx h hlay] at hfree
  cases hfree

theorem belongs_of_block {h : Hdr} (ho : lay p o = some h) :
    Belongs pages lay i (p, o) ↔ p ∈ pages ∧ h.free = true ∧ XV_MIN_ALLOC_SIZE ≤ h.size ∧
      get_index_for_insert h.size = i := by
  simp [Belongs, ho]

/-! ## A block is settled -/

/-- The layout in which the block at `o` has the header `h'`, and the one at `e`
has been told so. -/
def told (lay : Layout) (o : Nat) (h' : Hdr) (e : Nat) (f : Hdr → Hdr) : Layout := fun x =>
  if x = o then some h' else if x = e then (lay x).map f else lay x

theorem told_self :
    told layp o h' e f o = some h' := if_pos rfl

theorem told_next (hne : e ≠ o) :
    told layp o h' e f e = (layp e).map f := by
  unfold told
  rw [if_neg hne, if_pos rfl]

theorem told_other (ho : x ≠ o) (he : x ≠ e) : told layp o h' e f x = layp x := by
  unfold told
  rw [if_neg ho, if_neg he]

/-- What does not change when the block behind is told. -/
theorem told_cell {P : Hdr → Prop} (hP : ∀ n, P (f n) ↔ P n) (hne : (q, x) ≠ (p, o)) :
    (∃ h, update lay p (told layp o h' e f) q x = some h ∧ P h) ↔
      ∃ h, update lay p layp q x = some h ∧ P h := by
  by_cases hq : q = p
  · subst hq
    rw [update_self, update_self]
    unfold told
    rw [if_neg fun heq => hne (by rw [heq])]
    split
    · constructor
      · rintro ⟨h, heq, hh⟩
        obtain ⟨n, hn, rfl⟩ := map_eq_some_iff.mp heq
        exact ⟨n, hn, (hP n).mp hh⟩
      rintro ⟨n, hn, hh⟩
      exact ⟨f n, by rw [hn]; rfl, (hP n).mpr hh⟩
    rfl
  rw [update_of_ne hq, update_of_ne hq]

/-- **The end of a call**: a block has got its last header, and the block behind
it has been told. -/
theorem Rep.settled {s' : State} {p o : Nat} {h h' : Hdr} {f : Hdr → Hdr}
    {L' : Nat → List Addr} (hrep : Rep s lay L H U) (hH : ∀ x, H x → x = (p, o))
    (hpages : s'.pages = s.pages) (htotal : s'.pool.total_pages = s.pool.total_pages)
    (hp : p ∈ s.pages) (ho : lay p o = some h)
    (hspan : h'.span = h.span) (hpf : h'.prevFree = h.prevFree) (hprev : h'.prev = h.prev)
    (hsize : h'.free = true → h'.size % 4 = 0)
    (hbefore : h'.free = true → ∀ x hx, lay p x = some hx → x + hx.span = o → hx.free = false)
    (hbehind : h'.free = true → ∀ n, lay p (o + h.span) = some n → n.free = false)
    (hfsize : ∀ n, (f n).size = n.size) (hffree : ∀ n, (f n).free = n.free)
    (hfprev : ∀ n, lay p (o + h.span) = some n →
      (f n).prevFree = h'.free ∧ (h'.free = true → (f n).prev = o))
    (hlists : FreeLists s'.pool s'.mem L')
    (hhead : hdr s'.mem (p, o) = h')
    (hnext : ∀ n, lay p (o + h.span) = some n → hdr s'.mem (p, o + h.span) = f n)
    (hframe : ∀ q x hx, q ∈ s.pages → lay q x = some hx → (q, x) ≠ (p, o) →
      (q, x) ≠ (p, o + h.span) → hdr s'.mem (q, x) = hdr s.mem (q, x))
    (hcoupled : ∀ i x, i < NUM_FREE_LISTS → (x ∈ L' i ↔
      Belongs s.pages lay i x ∧ x ≠ (p, o) ∨
      x = (p, o) ∧ h'.free = true ∧ XV_MIN_ALLOC_SIZE ≤ h'.size ∧
        get_index_for_insert h'.size = i)) :
    Rep s' (update lay p (told (lay p) o h' (o + h.span) f)) L' (fun _ => False)
      fun _ => False := by
  have hpos := h.span_pos
  have hne : o + h.span ≠ o := by omega
  refine hrep.assemble hpages htotal hlists ?_ ?_ ?_ ?_ ?_
  · intro q x hx hq hqp hlay
    refine hframe q x hx hq hlay ?_ ?_
    · intro heq
      exact hqp (congrArg Prod.fst heq)
    intro heq
    exact hqp (congrArg Prod.fst heq)
  · intro x hx hlay
    by_cases hxo : x = o
    · subst hxo
      rw [told_self, some.injEq] at hlay
      rw [hhead, hlay]
    by_cases hxe : x = o + h.span
    · subst hxe
      rw [told_next hne, map_eq_some_iff] at hlay
      obtain ⟨n, hn, rfl⟩ := hlay
      exact hnext n hn
    rw [told_other hxo hxe] at hlay
    rw [hframe p x hx hp hlay (fun heq => hxo (congrArg Prod.snd heq))
      (fun heq => hxe (congrArg Prod.snd heq))]
    exact hrep.heads p x hx hp hlay
  · refine @Tiles.settle _ _ _ o _ h' (hrep.tiles p hp) ?_ ho hspan hpf hprev hsize hbefore hbehind
      told_self ?_ ?_
    · intro x hx
      exact congrArg Prod.snd (hH (p, x) hx)
    · intro n hn
      refine ⟨f n, ?_, hfsize n, hffree n, (hfprev n hn).1, (hfprev n hn).2⟩
      rw [told_next hne, hn]
      rfl
    intro x hxo hor
    by_cases hxe : x = o + h.span
    · subst hxe
      have hnone := hor.resolve_left (fun h => h rfl)
      rw [told_next hne, hnone]
      rfl
    exact told_other hxo hxe
  · intro q x hqp hx
    exact hqp (congrArg Prod.fst (hH (q, x) hx))
  intro i x hi
  rw [hcoupled i x hi, and_iff_left (fun h => h)]
  obtain ⟨q, y⟩ := x
  by_cases hx : (q, y) = (p, o)
  · cases hx
    constructor
    · rintro (⟨_, hnot⟩ | ⟨_, hrest⟩)
      · exact absurd rfl hnot
      · exact ⟨hp, h', by rw [update_self, told_self], hrest⟩
    rintro ⟨_, hx, heq, hrest⟩
    rw [update_self, told_self] at heq
    cases heq
    exact .inr ⟨rfl, hrest⟩
  have hbel : Belongs s.pages (update lay p (told (lay p) o h' (o + h.span) f)) i (q, y) ↔
      Belongs s.pages lay i (q, y) := by
    unfold Belongs
    rw [told_cell (P := fun n => n.free = true ∧ XV_MIN_ALLOC_SIZE ≤ n.size ∧
      get_index_for_insert n.size = i) (fun n => by rw [hffree, hfsize]) hx, update_eq_self]
  rw [hbel, and_iff_left hx, or_iff_left fun heq => hx heq.1]

/-! ## Taking blocks out of the lists -/

theorem remove_block_head_pages (n : Addr) (i : Nat) :
    (remove_block_head s n i).pages = s.pages ∧
      (remove_block_head s n i).pool.total_pages = s.pool.total_pages := by
  unfold remove_block_head
  simp only
  split <;> exact ⟨rfl, rfl⟩

theorem remove_block_pages (n : Addr) (i : Nat) :
    (remove_block s n.1 n.2 n i).pages = s.pages ∧
      (remove_block s n.1 n.2 n i).pool.total_pages = s.pool.total_pages := by
  unfold remove_block
  split
  · exact remove_block_head_pages n i
  · exact ⟨rfl, rfl⟩

section
variable {i : Nat}
variable (hrep : Rep s lay L H U) (hi : i < NUM_FREE_LISTS)
include hrep hi

variable {n : Addr}

/-- A block is in no list any more. -/
theorem Rep.unlist {s' : State} {l : List Addr} (hn : n ∈ L i) (hl : ∀ x, x ∈ l ↔ x ∈ L i ∧ x ≠ n)
    (hpages : s'.pages = s.pages) (htotal : s'.pool.total_pages = s.pool.total_pages)
    (hlists : FreeLists s'.pool s'.mem (update L i l))
    (hframe : ∀ page w, (∀ x, Listed L x → ¬LinkWord x page w) →
      s'.mem page w = s.mem page w) :
    Rep s' lay (update L i l) H fun x => U x ∨ x = n := by
  refine ⟨?_, ?_, hlists, ?_, ?_, ?_, ?_⟩
  · intro p o h hp ho
    rw [hpages] at hp
    rw [hdr_congr (hframe p (o / 4) fun x hx => hrep.header_not_link hx ho)]
    exact hrep.heads p o h hp ho
  · rw [hpages]
    exact hrep.tiles
  · intro j x hj
    rw [hpages, not_or]
    by_cases hji : j = i
    · subst hji
      rw [update_self, hl x, hrep.coupled j x hj, and_assoc]
    rw [update_of_ne hji, hrep.coupled j x hj]
    constructor
    · rintro ⟨hb, hU⟩
      refine ⟨hb, hU, ?_⟩
      rintro rfl
      exact hji (hrep.lists.once j i x hj hi ((hrep.coupled j x hj).mpr ⟨hb, hU⟩) hn)
    rintro ⟨hb, hU, _⟩
    exact ⟨hb, hU⟩
  · rw [hpages]
    exact hrep.nonzero
  · rw [hpages]
    exact hrep.nodup
  rw [hpages, htotal]
  exact hrep.total

theorem Rep.remove_head {rest : List Addr} (hlist : L i = n :: rest) :
    Rep (remove_block_head s n i) lay (update L i rest) H fun x => U x ∨ x = n := by
  obtain ⟨hlists, hframe⟩ := remove_block_head_spec hrep.lists hi hlist
  obtain ⟨hpages, htotal⟩ := remove_block_head_pages (s := s) n i
  have hn : n ∈ L i := by
    rw [hlist]
    exact List.mem_cons_self
  have hnodup := hrep.lists.nodup i hi
  rw [hlist] at hnodup
  refine hrep.unlist hi hn ?_ hpages htotal hlists hframe
  intro x
  rw [hlist, List.mem_cons]
  constructor
  · intro hx
    refine ⟨.inr hx, ?_⟩
    rintro rfl
    exact (List.nodup_cons.mp hnodup).1 hx
  rintro ⟨rfl | hx, hne⟩
  · exact absurd rfl hne
  · exact hx

theorem Rep.remove (hn : n ∈ L i) :
    Rep (remove_block s n.1 n.2 n i) lay (update L i ((L i).erase n)) H
      fun x => U x ∨ x = n := by
  obtain ⟨hlists, hframe⟩ := remove_block_spec hrep.lists hi hn
  obtain ⟨hpages, htotal⟩ := remove_block_pages (s := s) n i
  refine hrep.unlist hi hn ?_ hpages htotal hlists hframe
  intro x
  rw [(hrep.lists.nodup i hi).mem_erase_iff, and_comm]

end

/-! ## Putting a block into its list -/

variable {mem' : Mem} {h : Hdr} {t t' : State} {sz : Nat}

/-- Headers may be written without harm to the lists. -/
theorem FreeLists.write_headers {pool : Pool} {mem : Mem} {P : Nat → Nat → Prop}
    (hfl : FreeLists pool mem L) (hP : ∀ x, Listed L x → ∀ page w, P page w → ¬LinkWord x page w)
    (hsame : ∀ page w, ¬P page w → mem' page w = mem page w) : FreeLists pool mem' L := by
  refine hfl.frame fun x page w hx hlink => ?_
  exact hsame page w fun hp => hP x hx page w hp hlink

/-- One header is written. -/
theorem Rep.write_header (hrep : Rep s lay L H U) (hp : p ∈ s.pages) (ho : lay p o = some h)
    (hsame : ∀ page w, ¬(page = p ∧ w = o / 4) → mem' page w = s.mem page w) :
    FreeLists s.pool mem' L := by
  refine hrep.lists.write_headers ?_ hsame
  rintro x hx page w ⟨rfl, rfl⟩
  exact hrep.header_not_link hx ho

/-- What has become of the lists after a block has been inserted, if it is large
enough. -/
structure Lists (s t : State) (lay : Nat → Layout) (p o : Nat) (h : Hdr) (L' : Nat → List Addr) :
    Prop where
  lists : FreeLists t.pool t.mem L'
  noHeader : ∀ x, Listed L' x → ∀ q y hy, q ∈ s.pages → lay q y = some hy → ¬LinkWord x q (y / 4)
  coupled : ∀ i x, i < NUM_FREE_LISTS → (x ∈ L' i ↔ Belongs s.pages lay i x ∧ x ≠ (p, o) ∨
    x = (p, o) ∧ XV_MIN_ALLOC_SIZE ≤ h.size ∧ get_index_for_insert h.size = i)

theorem Rep.list_block (hrep : Rep s lay L H fun x => x = (p, o)) (hp : p ∈ s.pages)
    (ho : lay p o = some h) (hal : h.size % 4 = 0) (hlists : FreeLists t.pool t.mem L)
    (hsize : size t.mem (p, o) = h.size)
    (ht' : t' = if size t.mem (p, o) ≥ XV_MIN_ALLOC_SIZE then insert_block t p o (p, o) else t) :
    ∃ L', Lists s t' lay p o h L' ∧ t'.pages = t.pages ∧
      t'.pool.total_pages = t.pool.total_pages ∧
      ∀ q y hy, q ∈ s.pages → lay q y = some hy → hdr t'.mem (q, y) = hdr t.mem (q, y) := by
  have htiles := hrep.tiles p hp
  have hnew : ¬Listed L (p, o) := fun hx => (hrep.of_listed hx).2.choose_spec.2.2.2 rfl
  by_cases hmin : size t.mem (p, o) ≥ XV_MIN_ALLOC_SIZE
  · rw [if_pos hmin] at ht'
    rw [hsize] at hmin
    have hmax := htiles.size_le ho
    have hin := htiles.inside ho
    have hspan := Hdr.span_of_aligned hal
    unfold PAGE_SIZE at hin
    -- The block is apart from those in the lists.
    have hapart : ∀ x, Listed L x → Apart (p, o) x := by
      intro x hx hpage
      obtain ⟨hq, hx', hlay, hfx, hminx, hne⟩ := hrep.of_listed hx
      have hspanx := Hdr.span_of_aligned ((hrep.tiles _ hq).freeSize hlay hfx)
      obtain ⟨q, y⟩ := x
      obtain rfl : p = q := hpage
      unfold XV_MIN_ALLOC_SIZE at hmin hminx
      have hor := htiles.disjoint ho hlay fun heq => hne (by rw [heq])
      omega
    obtain ⟨hlists', hframe⟩ := insert_block_spec (n := (p, o)) hlists
      ⟨hrep.nonzero p hp, by omega⟩ hnew hapart (by rw [hsize])
      (get_index_for_insert_lt hmin hmax)
    have hown : ∀ q y hy, q ∈ s.pages → lay q y = some hy → ¬LinkWord (p, o) q (y / 4) := by
      intro q y hy hq hlay hlink
      obtain ⟨hqp, hlo, hhi⟩ := hlink
      obtain rfl : q = p := hqp
      unfold XV_MIN_ALLOC_SIZE at hmin
      have hle := htiles.le_of_lt ho hlay (by omega)
      omega
    have hcases : ∀ i x, x ∈ update L (get_index_for_insert h.size)
        ((p, o) :: L (get_index_for_insert h.size)) i ↔
        x ∈ L i ∨ x = (p, o) ∧ get_index_for_insert h.size = i := by
      intro i x
      by_cases hi : i = get_index_for_insert h.size
      · subst hi
        rw [update_self, List.mem_cons, or_comm, and_iff_left rfl]
      rw [update_of_ne hi]
      constructor
      · exact .inl
      rintro (hx | ⟨_, heq⟩)
      · exact hx
      · exact absurd heq.symm hi
    refine ⟨_, ⟨by rw [ht']; exact hlists', ?_, ?_⟩, by rw [ht']; rfl, by rw [ht']; rfl, ?_⟩
    · rintro x ⟨i, hi, hx⟩ q y hy hq hlay
      rcases (hcases i x).mp hx with hold | ⟨rfl, _⟩
      · exact hrep.header_not_link ⟨i, hi, hold⟩ hlay
      · exact hown q y hy hq hlay
    · intro i x hi
      rw [hcases i x, hrep.coupled i x hi]
      constructor
      · rintro (hb | ⟨rfl, hidx⟩)
        · exact .inl hb
        · exact .inr ⟨rfl, hmin, hidx⟩
      rintro (hb | ⟨rfl, _, hidx⟩)
      · exact .inl hb
      · exact .inr ⟨rfl, hidx⟩
    intro q y hy hq hlay
    rw [ht']
    exact hdr_congr (hframe q (y / 4) (hown q y hy hq hlay)
      fun x hx => hrep.header_not_link hx hlay)
  rw [if_neg hmin] at ht'
  rw [hsize] at hmin
  subst ht'
  refine ⟨L, ⟨hlists, ?_, ?_⟩, rfl, rfl, fun _ _ _ _ _ => rfl⟩
  · intro x hx q y hy hq hlay
    exact hrep.header_not_link hx hlay
  intro i x hi
  rw [hrep.coupled i x hi]
  constructor
  · exact .inl
  rintro (hb | ⟨_, hmin', _⟩)
  · exact hb
  · exact absurd hmin' hmin

/-- The block at `e`, if the page goes on there, gets a header that `f` makes of its
own. -/
structure Tells (lay : Nat → Layout) (p e : Nat) (f : Hdr → Hdr) (t t' : State) : Prop where
  pool : t'.pool = t.pool
  pages : t'.pages = t.pages
  hdr : ∀ n, lay p e = some n → hdr t'.mem (p, e) = f n
  frame : ∀ page w, ¬(page = p ∧ w = e / 4 ∧ lay p e ≠ none) → t'.mem page w = t.mem page w

theorem Rep.tell {t t' : State} {p o : Nat} {h : Hdr} {f : Hdr → Hdr} {mem' : Mem}
    (hrep : Rep s lay L H U) (hp : p ∈ s.pages) (ho : lay p o = some h)
    (hw : ∀ n, lay p (o + h.span) = some n → Writes t.mem mem' (p, o + h.span) (f n))
    (ht' : t' = if o + h.span ≠ PAGE_SIZE then { t with mem := mem' } else t) :
    Tells lay p (o + h.span) f t t' := by
  by_cases hlast : o + h.span = PAGE_SIZE
  · rw [if_neg (not_not_intro hlast)] at ht'
    subst ht'
    refine ⟨rfl, rfl, ?_, fun _ _ _ => rfl⟩
    intro n hn
    have hin := (hrep.tiles p hp).inside hn
    have hpos := n.span_pos
    omega
  rw [if_pos hlast] at ht'
  subst ht'
  obtain ⟨n, hn⟩ := (hrep.tiles p hp).next ho hlast
  refine ⟨rfl, rfl, ?_, ?_⟩
  · intro n' hn'
    exact (hw n' hn').hdr
  intro page w hne
  exact (hw n hn).frame page w fun heq =>
    hne ⟨heq.1, heq.2, by rw [hn]; exact some_ne_none n⟩

section
variable {t : State} (hfl : FreeLists t.pool t.mem L)
variable (hno : ∀ x, Listed L x → ∀ y n, lay p y = some n → ¬LinkWord x p (y / 4))
include hfl hno

/-- The block behind another is told something. -/
theorem FreeLists.told {t' : State} {e : Nat} {f : Hdr → Hdr} (htell : Tells lay p e f t t') :
    FreeLists t'.pool t'.mem L := by
  rw [htell.pool]
  refine hfl.write_headers ?_ htell.frame
  rintro x hx page w ⟨rfl, rfl, hn⟩
  obtain ⟨n, hn⟩ := ne_none_iff_exists'.mp hn
  exact hno x hx e n hn

theorem FreeLists.write {h' : Hdr} (ho : lay p o = some h) (hw : Writes t.mem mem' (p, o) h') :
    FreeLists t.pool mem' L := by
  refine hfl.write_headers ?_ hw.frame
  rintro x hx page w ⟨rfl, rfl⟩
  exact hno x hx o h ho

end

/-- The header of a block other than the one that is told. -/
theorem Tells.other (htell : Tells lay p e f t t') {b : Addr} (hne : b.1 = p → b.2 / 4 ≠ e / 4) :
    Xvmalloc.hdr t'.mem b = Xvmalloc.hdr t.mem b :=
  hdr_congr (htell.frame _ _ fun heq => hne heq.1 heq.2.1)

/-! ## The blocks in use -/

/-- The block is in use, with this size in its header. -/
def Used (lay : Nat → Layout) (p o size : Nat) : Prop :=
  ∃ h, lay p o = some h ∧ h.free = false ∧ h.size = size

theorem used_cell (hne : (q, x) ≠ (p, o)) :
    Used (update lay p (update layp o v)) q x sz ↔ Used (update lay p layp) q x sz := by
  unfold Used
  rw [update_cell hne]

/-- The block is in use as its header says. -/
theorem used_of_block (ho : lay p o = some h) :
    Used lay p o sz ↔ h.free = false ∧ h.size = sz := by
  constructor
  · rintro ⟨h', ho', hused⟩
    rw [ho, some.injEq] at ho'
    rw [ho']
    exact hused
  intro hused
  exact ⟨h, ho, hused⟩

/-- A free block is not in use. -/
theorem not_used_of_free (ho : lay p o = some h) (hfree : h.free = true) (sz : Nat) :
    ¬Used lay p o sz := by
  rw [used_of_block ho, hfree]
  rintro ⟨hf, _⟩
  cases hf

/-- Telling the block behind does not change what is in use. -/
theorem used_told (hfsize : ∀ n, (f n).size = n.size) (hffree : ∀ n, (f n).free = n.free) :
    Used (update lay p (told layp o h' e f)) q x sz ↔
      if (q, x) = (p, o) then h'.free = false ∧ h'.size = sz
      else Used (update lay p layp) q x sz := by
  by_cases hx : (q, x) = (p, o)
  · cases hx
    rw [if_pos rfl]
    exact used_of_block (by rw [update_self, told_self])
  rw [if_neg hx]
  exact told_cell (P := fun h => h.free = false ∧ h.size = sz)
    (fun n => by rw [hffree, hfsize]) hx

theorem used_self :
    Used (update lay p (lay p)) q x sz ↔ Used lay q x sz := by
  rw [update_eq_self]

end rep

end Nubernel.Xvmalloc
