import Nubernel.Xvmalloc.Malloc
import Nubernel.Xvmalloc.Free

/-! # xvmalloc: objects

The pool together with those who use it: objects are allocated, written to and
freed, and `alloc_page` may fail at any time. What holds of the pool
(`Rep`) is kept by each step, and the objects are the blocks in use.
-/

open Function LTS List Option

namespace Nubernel.Xvmalloc

/-! ## The system -/

/-- An object that has been handed out, with the size that was asked for. -/
structure Object where
  page : Nat
  offset : Nat
  size : Nat
deriving DecidableEq

structure World where
  st : State
  live : List Object

inductive Label where
  | malloc (size flags : Nat) (alloc_page : PageAlloc)
  | free (obj : Object)
  /-- A word of an object is written by its owner. -/
  | write (obj : Object) (index value : Nat)

instance (alloc_page : PageAlloc) (pages : List Nat) : Decidable (alloc_page.Fresh pages) :=
  match alloc_page with
  | none => isTrue fun _ _ h => by cases h
  | some (page, content) =>
    if h : page ≠ 0 ∧ page ∉ pages then isTrue fun _ _ heq => by cases heq; exact h
    else isFalse fun hfresh => h (hfresh page content rfl)

def World.malloc (w : World) (size flags : Nat) (alloc_page : PageAlloc) : World :=
  let (error, (page, offset), st) := xv_malloc w.st size flags alloc_page
  { st := st, live := if error = 0 then ⟨page, offset, size⟩ :: w.live else w.live }

/-- A word of a page is written. -/
def Mem.store (mem : Mem) (page index value : Nat) : Mem :=
  update mem page (update (mem page) index value)

def World.write (w : World) (obj : Object) (index value : Nat) : World :=
  { w with st := { w.st with mem := w.st.mem.store obj.page index value } }

/-- A step; there is none if the call is not allowed, and none for an `xv_free` that
does not return. -/
def World.next (w : World) : Label → Option World
  | .malloc size flags alloc_page =>
    if alloc_page.Fresh w.st.pages then some (w.malloc size flags alloc_page) else none
  | .free obj =>
    if obj ∈ w.live then
      (xv_free w.st obj.page obj.offset).map fun st => { st := st, live := w.live.erase obj }
    else none
  | .write obj index value =>
    if obj ∈ w.live ∧ obj.offset ≤ 4 * index ∧ 4 * index < obj.offset + obj.size then
      some (w.write obj index value)
    else none

def xvmalloc : System World Label :=
  .ofFun (fun w => ∃ mem, w = { st := xv_create_pool mem, live := [] }) World.next

/-! ## The invariant -/

/-- The objects are the blocks in use. -/
structure Inv (w : World) (lay : Nat → Layout) (L : Nat → List Addr) : Prop where
  rep : Rep w.st lay L (fun _ => False) fun _ => False
  nodup : w.live.Nodup
  live : ∀ obj, obj ∈ w.live ↔ obj.page ∈ w.st.pages ∧
    ∃ o, obj.offset = o + XV_ALIGN ∧ Used lay obj.page o obj.size

theorem used_unique {lay : Nat → Layout} {p o sz sz' : Nat} (hu : Used lay p o sz)
    (hu' : Used lay p o sz') : sz = sz' := by
  obtain ⟨h, ho, _, rfl⟩ := hu
  obtain ⟨h', ho', _, rfl⟩ := hu'
  rw [ho, some.injEq] at ho'
  rw [ho']

theorem inv_init (mem : Mem) :
    Inv { st := xv_create_pool mem, live := [] } (fun _ _ => none) fun _ => [] := by
  refine ⟨⟨?_, ?_, ⟨?_, ?_, ?_, ?_, ?_, ?_, ?_, ?_⟩, ?_, ?_, ?_, rfl⟩, nodup_nil, ?_⟩
  · intro p o h hp
    cases hp
  · intro p hp
    cases hp
  · intro i _
    rfl
  · intro i _
    trivial
  · intro i _
    exact nodup_nil
  · intro i j x _ _ hx
    cases hx
  · rintro x y ⟨i, _, hx⟩
    cases hx
  · rintro x ⟨i, _, hx⟩
    cases hx
  · intro i
    simp [xv_create_pool]
  · intro k
    simp [xv_create_pool]
  · intro i x _
    constructor
    · intro hx
      cases hx
    rintro ⟨⟨hp, _⟩, _⟩
    cases hp
  · intro p hp
    cases hp
  · exact nodup_nil
  intro obj
  constructor
  · intro hobj
    cases hobj
  rintro ⟨hp, _⟩
  cases hp

section steps
variable {w : World} {lay : Nat → Layout} {L : Nat → List Addr} {s : State}

/-- **The owner of a block may write to it.** -/
theorem Rep.write {p o i v : Nat} {h : Hdr} (hrep : Rep s lay L (fun _ => False) fun _ => False)
    (hp : p ∈ s.pages) (ho : lay p o = some h) (hused : h.free = false) (hlo : o + XV_ALIGN ≤ 4 * i)
    (hhi : 4 * i < o + XV_ALIGN + h.size) :
    Rep { s with mem := s.mem.store p i v } lay L (fun _ => False) fun _ => False := by
  have htiles := hrep.tiles p hp
  have hal := htiles.aligned ho
  have hspan := h.span_eq
  unfold XV_ALIGN at hlo hhi
  have hin : InTile (lay p) o i := ⟨h, ho, by omega, by omega⟩
  have hother : ∀ page x, (page = p → x ≠ i) → s.mem.store p i v page x = s.mem page x := by
    intro page x hne
    unfold Mem.store
    by_cases hpage : page = p
    · subst hpage
      rw [update_self, update_of_ne (hne rfl)]
    rw [update_of_ne hpage]
  refine ⟨?_, hrep.tiles, ?_, hrep.coupled, hrep.nonzero, hrep.nodup, hrep.total⟩
  · intro q x hx hq hlay
    have hne : q = p → x / 4 ≠ i := by
      rintro rfl heq
      have hhead := header_inTile hlay
      rw [heq] at hhead
      obtain rfl := htiles.inTile_unique hhead hin
      omega
    rw [hdr_congr (hother q (x / 4) hne)]
    exact hrep.heads q x hx hq hlay
  refine hrep.lists.frame ?_
  intro x page y hx hlink
  refine hother page y ?_
  rintro rfl rfl
  refine hrep.not_link hx hin ?_ hlink
  rintro rfl
  obtain ⟨_, hx', hlay, hfree, _⟩ := hrep.of_listed hx
  rw [show lay page o = some h from ho, some.injEq] at hlay
  rw [← hlay, hused] at hfree
  cases hfree

section
variable (hinv : Inv w lay L)
include hinv

theorem Inv.malloc {size flags : Nat} {alloc_page : PageAlloc}
    (hfresh : alloc_page.Fresh w.st.pages) :
    ∃ lay' L', Inv (w.malloc size flags alloc_page) lay' L' := by
  have hspec := @xv_malloc_spec _ _ _ size flags _ hinv.rep hfresh
  unfold World.malloc
  cases hcall : xv_malloc w.st size flags alloc_page with
  | mk error rest =>
  obtain ⟨⟨page, offset⟩, s'⟩ := rest
  rw [hcall] at hspec
  simp only at hspec ⊢
  cases hspec with
  | ok hpos hmax hrep' hp hkeep hnew hused =>
    rename_i o lay' L'
    rw [if_pos rfl]
    have hmem : ⟨page, o + XV_ALIGN, size⟩ ∉ w.live := by
      intro hobj
      obtain ⟨hold, o', heq, hu⟩ := (hinv.live _).mp hobj
      obtain rfl : o = o' := Nat.add_right_cancel heq
      exact hnew hold _ hu
    refine ⟨lay', L', hrep', nodup_cons.mpr ⟨hmem, hinv.nodup⟩, ?_⟩
    intro obj
    rw [mem_cons, hinv.live obj]
    constructor
    · rintro (rfl | ⟨hq, x, heq, hu⟩)
      · exact ⟨hp, o, rfl, (hused _ _ _ hp).mpr (.inr ⟨rfl, rfl⟩)⟩
      · exact ⟨hkeep _ hq, x, heq, (hused _ _ _ (hkeep _ hq)).mpr (.inl ⟨hq, hu⟩)⟩
    rintro ⟨hq, x, heq, hu⟩
    rcases (hused _ _ _ hq).mp hu with ⟨hold, hu'⟩ | ⟨hpx, hsz⟩
    · exact .inr ⟨hold, x, heq, hu'⟩
    left
    obtain ⟨q, offset, sz⟩ := obj
    simp only [Prod.mk.injEq] at hpx heq hsz
    rw [hpx.1, heq, hpx.2, hsz]
  | fail hrep' hkeep hused =>
    rename_i lay' L'
    rw [if_neg (by decide)]
    refine ⟨lay', L', hrep', hinv.nodup, ?_⟩
    intro obj
    rw [hinv.live obj]
    constructor
    · rintro ⟨hq, x, heq, hu⟩
      exact ⟨hkeep _ hq, x, heq, (hused _ _ _ (hkeep _ hq)).mpr ⟨hq, hu⟩⟩
    rintro ⟨hq, x, heq, hu⟩
    obtain ⟨hold, hu'⟩ := (hused _ _ _ hq).mp hu
    exact ⟨hold, x, heq, hu'⟩

theorem Inv.free {obj : Object} (hobj : obj ∈ w.live) :
    ∃ st lay' L', xv_free w.st obj.page obj.offset = some st ∧
      Inv { st := st, live := w.live.erase obj } lay' L' := by
  obtain ⟨hp, o, heq, hu⟩ := (hinv.live obj).mp hobj
  obtain ⟨s', lay', L', hfree, hrep', hsub, hkeep, hused⟩ := hinv.rep.free hp hu
  rw [← heq] at hfree
  refine ⟨s', lay', L', hfree, hrep', hinv.nodup.erase obj, ?_⟩
  intro obj'
  rw [hinv.nodup.mem_erase_iff, hinv.live obj']
  constructor
  · rintro ⟨hne, hq, x, heq', hu'⟩
    have hpx : (obj'.page, x) ≠ (obj.page, o) := by
      intro hpx
      obtain ⟨hpage, rfl⟩ := Prod.mk.injEq .. ▸ hpx
      rw [hpage] at hu'
      have hsz := used_unique hu' hu
      obtain ⟨q, offset, sz⟩ := obj
      obtain ⟨q', offset', sz'⟩ := obj'
      simp only at hpage heq heq' hsz
      exact hne (by rw [hpage, heq', hsz, heq])
    have hq' := hkeep _ _ _ hq hpx hu'
    exact ⟨hq', x, heq', (hused _ _ _ hq').mpr ⟨hu', hpx⟩⟩
  rintro ⟨hq, x, heq', hu'⟩
  obtain ⟨hold, hpx⟩ := (hused _ _ _ hq).mp hu'
  refine ⟨?_, hsub _ hq, x, heq', hold⟩
  rintro rfl
  rw [heq] at heq'
  exact hpx (by rw [Nat.add_right_cancel heq'])

theorem Inv.write {obj : Object} {index value : Nat} (hobj : obj ∈ w.live)
    (hlo : obj.offset ≤ 4 * index) (hhi : 4 * index < obj.offset + obj.size) :
    Inv (w.write obj index value) lay L := by
  obtain ⟨hp, o, heq, h, ho, hused, hsz⟩ := (hinv.live obj).mp hobj
  rw [heq] at hlo hhi
  rw [← hsz] at hhi
  exact ⟨hinv.rep.write hp ho hused hlo hhi, hinv.nodup, hinv.live⟩

/-- Each step keeps the invariant. -/
theorem Inv.step {w' : World} {l : Label} (hstep : xvmalloc.step w l w') :
    ∃ lay' L', Inv w' lay' L' := by
  change w.next l = some w' at hstep
  cases l with
  | malloc size flags alloc_page =>
    rw [World.next] at hstep
    by_cases hfresh : alloc_page.Fresh w.st.pages
    · rw [if_pos hfresh, some.injEq] at hstep
      rw [← hstep]
      exact hinv.malloc hfresh
    rw [if_neg hfresh] at hstep
    cases hstep
  | free obj =>
    rw [World.next] at hstep
    by_cases hobj : obj ∈ w.live
    · obtain ⟨st, lay', L', hfree, hinv'⟩ := hinv.free hobj
      rw [if_pos hobj, hfree, map_some, some.injEq] at hstep
      rw [← hstep]
      exact ⟨lay', L', hinv'⟩
    rw [if_neg hobj] at hstep
    cases hstep
  | write obj index value => ?_
  rw [World.next] at hstep
  by_cases hwrite : obj ∈ w.live ∧ obj.offset ≤ 4 * index ∧
      4 * index < obj.offset + obj.size
  · rw [if_pos hwrite, some.injEq] at hstep
    rw [← hstep]
    exact ⟨lay, L, hinv.write hwrite.1 hwrite.2.1 hwrite.2.2⟩
  rw [if_neg hwrite] at hstep
  cases hstep

end

theorem reachable_inv (hw : xvmalloc.Reachable w) : ∃ lay L, Inv w lay L := by
  refine System.invariant (P := fun w => ∃ lay L, Inv w lay L) ?_ ?_ hw
  · rintro w ⟨mem, rfl⟩
    exact ⟨_, _, inv_init mem⟩
  rintro w l w' ⟨lay, L, hinv⟩ hstep
  exact hinv.step hstep

end steps

/-! ## What holds at all times -/

/-- The blocks `lay` of the pages, the lists `L` and the bitmaps are in order. -/
structure Sound (st : State) (lay : Nat → Layout) (L : Nat → List Addr) : Prop where
  /-- The headers are in memory. -/
  header : ∀ p o h, p ∈ st.pages → lay p o = some h →
    size st.mem (p, o) = h.size ∧ test_flag st.mem (p, o) .BLOCK_FREE = h.free ∧
      test_flag st.mem (p, o) .PREV_FREE = h.prevFree ∧ get_blockprev st.mem (p, o) = h.prev
  /-- The blocks are in the page, and each byte of the page is in one of them. -/
  inside : ∀ p o h, p ∈ st.pages → lay p o = some h → o % XV_ALIGN = 0 ∧ o + h.span ≤ PAGE_SIZE
  tiled : ∀ p x, p ∈ st.pages → x < PAGE_SIZE →
    ∃! o, ∃ h, lay p o = some h ∧ o ≤ x ∧ x < o + h.span
  /-- No two neighbours are free. -/
  merged : ∀ p o h h', p ∈ st.pages → lay p o = some h → lay p (o + h.span) = some h' →
    ¬(h.free = true ∧ h'.free = true)
  /-- Each block knows whether the one before it is free, and then where it is. -/
  first : ∀ p h, p ∈ st.pages → lay p 0 = some h → h.prevFree = false
  prev : ∀ p o h h', p ∈ st.pages → lay p o = some h → lay p (o + h.span) = some h' →
    h'.prevFree = h.free ∧ (h.free = true → h'.prev = o)
  /-- The lists are linked, and each holds the blocks that belong into it. -/
  head : ∀ i, i < NUM_FREE_LISTS → entry (st.pool.freelist i) = (L i).head?
  linked : ∀ i, i < NUM_FREE_LISTS → Dlist.Linked (nextOf st.mem) (prevOf st.mem) none (L i)
  nodup : ∀ i, i < NUM_FREE_LISTS → (L i).Nodup
  listed : ∀ i x, i < NUM_FREE_LISTS → (x ∈ L i ↔ Belongs st.pages lay i x)
  /-- The bitmaps. -/
  sl : ∀ i, i < NUM_FREE_LISTS →
    ((st.pool.slbitmap (i / BITS_PER_LONG)).getLsbD (i % BITS_PER_LONG) = true ↔ L i ≠ [])
  fl : ∀ k, st.pool.flbitmap.getLsbD k = true ↔
    ∃ i, i < NUM_FREE_LISTS ∧ i / BITS_PER_LONG = k ∧ L i ≠ []

/-- The objects are in blocks of their own that are large enough, and can be
freed. -/
structure Separate (w : World) (lay : Nat → Layout) : Prop where
  block : ∀ obj, obj ∈ w.live → obj.page ∈ w.st.pages ∧ XV_ALIGN ≤ obj.offset ∧
    ∃ h, lay obj.page (obj.offset - XV_ALIGN) = some h ∧ h.free = false ∧ obj.size ≤ h.size
  inside : ∀ obj, obj ∈ w.live → obj.offset + obj.size ≤ PAGE_SIZE
  disjoint : ∀ a b, a ∈ w.live → b ∈ w.live → a ≠ b → a.page = b.page →
    a.offset + a.size ≤ b.offset ∨ b.offset + b.size ≤ a.offset
  returns : ∀ obj, obj ∈ w.live → xv_free w.st obj.page obj.offset ≠ none

section sound
variable {w : World} {lay : Nat → Layout} {L : Nat → List Addr}

/-- A bitmap that is not zero has a bit set. -/
theorem exists_bit_of_ne_zero {v : BitVec 32} (hne : v ≠ 0#32) : ∃ j < 32, v.getLsbD j = true := by
  obtain ⟨j, hj⟩ := (ne_zero_iff v).mp hne
  exact ⟨j, BitVec.lt_of_getLsbD hj, hj⟩

theorem Bitmaps.group {pool : Pool} {E : Nat → Prop} (hbits : Bitmaps pool E) (k : Nat) :
    pool.flbitmap.getLsbD k = true ↔ ∃ i, i / 32 = k ∧ E i := by
  rw [hbits.fl k]
  constructor
  · intro hne
    obtain ⟨j, hj, hbit⟩ := exists_bit_of_ne_zero hne
    have hdiv : (32 * k + j) / 32 = k := by omega
    have hmod : (32 * k + j) % 32 = j := by omega
    refine ⟨32 * k + j, hdiv, (hbits.sl _).mp ?_⟩
    rw [hdiv, hmod]
    exact hbit
  rintro ⟨i, rfl, hE⟩ hzero
  have hbit := (hbits.sl i).mpr hE
  rw [hzero, BitVec.getLsbD_zero] at hbit
  cases hbit

theorem Rep.sound (hrep : Rep s lay L (fun _ => False) fun _ => False) :
    Sound s lay L := by
  refine ⟨?_, ?_, ?_, ?_, ?_, ?_, hrep.lists.head, hrep.lists.linked, hrep.lists.nodup, ?_, ?_, ?_⟩
  · intro p o h hp ho
    have hhdr := hrep.heads p o h hp ho
    rw [size_eq, test_flag_free, test_flag_prev, get_blockprev_eq, hhdr]
    exact ⟨rfl, rfl, rfl, rfl⟩
  · intro p o h hp ho
    exact ⟨(hrep.tiles p hp).aligned ho, (hrep.tiles p hp).inside ho⟩
  · intro p x hp hx
    have htiles := hrep.tiles p hp
    obtain ⟨o, n, ho, hle, hlt⟩ := htiles.tiling.covers hx
    obtain ⟨h, hlay, rfl⟩ := exists_of_spans ho
    refine ⟨o, ⟨h, hlay, hle, hlt⟩, ?_⟩
    rintro o' ⟨h', hlay', hle', hlt'⟩
    by_contra hne
    have hor := htiles.disjoint hlay' hlay hne
    omega
  · rintro p o h h' hp ho ho' ⟨hfree, hfree'⟩
    rw [(hrep.tiles p hp).apart ho ho' hfree] at hfree'
    cases hfree'
  · intro p h hp ho
    exact (hrep.tiles p hp).first ho
  · intro p o h h' hp ho ho'
    exact (hrep.tiles p hp).prev (fun h => h) ho ho'
  · intro i x hi
    rw [hrep.coupled i x hi, and_iff_left (fun h => h)]
  · intro i hi
    refine (hrep.lists.bits.sl i).trans ?_
    exact ⟨fun h => h.2, fun h => ⟨hi, h⟩⟩
  intro k
  rw [hrep.lists.bits.group k]
  constructor
  · rintro ⟨i, hk, hi, hne⟩
    exact ⟨i, hi, hk, hne⟩
  rintro ⟨i, hi, hk, hne⟩
  exact ⟨i, hk, hi, hne⟩

theorem Inv.separate (hinv : Inv w lay L) : Separate w lay := by
  -- The block of an object.
  have hblock : ∀ obj, obj ∈ w.live → obj.page ∈ w.st.pages ∧ ∃ o h, obj.offset = o + 4 ∧
      lay obj.page o = some h ∧ h.free = false ∧ h.size = obj.size := by
    intro obj hobj
    obtain ⟨hp, o, heq, h, ho, hused, hsz⟩ := (hinv.live obj).mp hobj
    exact ⟨hp, o, h, heq, ho, hused, hsz⟩
  refine ⟨?_, ?_, ?_, ?_⟩
  · intro obj hobj
    obtain ⟨hp, o, h, heq, ho, hused, hsz⟩ := hblock obj hobj
    refine ⟨hp, ?_, h, ?_, hused, Nat.le_of_eq hsz.symm⟩
    · rw [heq]
      exact Nat.le_add_left 4 o
    rw [heq]
    exact ho
  · intro obj hobj
    obtain ⟨hp, o, h, heq, ho, _, hsz⟩ := hblock obj hobj
    have hin := (hinv.rep.tiles _ hp).inside ho
    have hspan := h.span_eq
    omega
  · intro a b ha hb hne hpage
    obtain ⟨hp, o, h, heq, ho, _, hsz⟩ := hblock a ha
    obtain ⟨_, o', h', heq', ho', _, hsz'⟩ := hblock b hb
    have htiles := hinv.rep.tiles _ hp
    rw [← hpage] at ho'
    have hspan := h.span_eq
    have hspan' := h'.span_eq
    by_cases hoo : o = o'
    · subst hoo
      rw [ho, some.injEq] at ho'
      subst ho'
      obtain ⟨pa, oa, sa⟩ := a
      obtain ⟨pb, ob, sb⟩ := b
      simp only at hpage heq heq' hsz hsz'
      exact absurd (by rw [hpage, heq, heq', ← hsz, hsz']) hne
    have hor := htiles.disjoint ho ho' hoo
    omega
  intro obj hobj
  obtain ⟨st, _, _, hfree, _⟩ := hinv.free hobj
  rw [hfree]
  exact some_ne_none st

/-- **The pool is in order after every sequence of calls**, and the objects do not
overlap. -/
theorem xvmalloc_sound (hw : xvmalloc.Reachable w) :
    ∃ lay L, Sound w.st lay L ∧ Separate w lay := by
  obtain ⟨lay, L, hinv⟩ := reachable_inv hw
  exact ⟨lay, L, hinv.rep.sound, hinv.separate⟩

/-- Three objects on two pages, of which the second is freed and the first written
to; one more page is refused. -/
def threeObjects : List Label :=
  [.malloc 100 0 (some (1, fun _ => 7)), .malloc 3000 0 none, .malloc 2000 0 none,
    .malloc 2000 0 (some (2, fun _ => 0)), .free ⟨1, 108, 3000⟩, .write ⟨1, 4, 100⟩ 3 1000]

theorem xvmalloc_sound_threeObjects :
    ∃ w, w.live = [⟨2, 4, 2000⟩, ⟨1, 4, 100⟩] ∧ ∃ lay L, Sound w.st lay L ∧ Separate w lay := by
  obtain ⟨w, hreach, hlive⟩ : ∃ w, xvmalloc.Reachable w ∧ w.live = [⟨2, 4, 2000⟩, ⟨1, 4, 100⟩] :=
    System.exists_of_replay threeObjects ⟨fun _ _ => 0, rfl⟩ (by decide +kernel)
  exact ⟨w, hlive, xvmalloc_sound hreach⟩

end sound

/-! ## When `xv_malloc` fails -/

section failing
variable {s : State} {lay : Nat → Layout} {L : Nat → List Addr}

variable {alloc_page : PageAlloc}

/-- The list in which the search begins. -/
theorem get_index_le_iff {size : Nat} (hmax : size ≤ 4092) :
    get_index (ALIGN size XV_ALIGN) ≤ 507 ↔ size ≤ 4088 := by
  rw [ALIGN_four, get_index_eq (by omega)]
  omega

/-- After the pool has grown a block is found, unless the search begins behind the
last list. -/
theorem Rep.find_grown {size page : Nat} {content : Nat → Nat}
    (hrep : Rep s lay L (fun _ => False) fun _ => False) (hmax : size ≤ 4092) (hpage : page ≠ 0)
    (hnew : page ∉ s.pages) :
    (find_block (grow_pool s (some (page, content))).2.pool (ALIGN size XV_ALIGN)).2.1 ≠ 0 ↔
      size ≤ 4088 := by
  obtain ⟨_, _, L', hrep', hlast⟩ := @Rep.grow _ _ _ _ content hrep hpage hnew
  rcases hrep'.find (ALIGN size XV_ALIGN) with ⟨i, n, rest, hi, hle, _, hn, hfind⟩ | ⟨hnone, hfind⟩
  · rw [hfind]
    have hi : i < 508 := hi
    exact iff_of_true hn ((get_index_le_iff hmax).mp (by omega))
  rw [hfind]
  refine iff_of_false (fun h => h rfl) ?_
  intro hsize
  exact hlast (hnone 507 ((get_index_le_iff hmax).mpr hsize) (by decide))

/-- **A call of `xv_malloc` fails only for want of a page, and without leaving one
behind, if the size is at most 4088** or no page is to be had. -/
theorem xv_malloc_failure {w : World} (hw : xvmalloc.Reachable w) {size flags : Nat}
    {alloc_page : PageAlloc} (hfresh : alloc_page.Fresh w.st.pages) (hpos : 1 ≤ size)
    (hmax : size ≤ XV_MAX_ALLOC_SIZE) :
    ((xv_malloc w.st size flags alloc_page).1 ≠ 0 →
      ((find_block w.st.pool (ALIGN size XV_ALIGN)).2.1 = 0 ∧ alloc_page = none) ∧
      (xv_malloc w.st size flags alloc_page).2.2.pages.length = w.st.pages.length) ↔
    size ≤ 4088 ∨ alloc_page = none := by
  obtain ⟨lay, L, hinv⟩ := reachable_inv hw
  have hle : size ≤ 4092 := hmax
  unfold xv_malloc
  rw [if_neg (show ¬(size = 0 ∨ size > XV_MAX_ALLOC_SIZE) by omega)]
  simp only
  by_cases hfound : (find_block w.st.pool (ALIGN size XV_ALIGN)).2.1 = 0
  · rw [if_neg (not_not_intro hfound),
      if_neg (by rw [GFP_NOWAIT, Nat.and_zero]; exact fun h => h rfl)]
    cases halloc : alloc_page with
    | none =>
      refine iff_of_true ?_ (.inr rfl)
      intro _
      exact ⟨⟨hfound, rfl⟩, rfl⟩
    | some a => ?_
    obtain ⟨page, content⟩ := a
    obtain ⟨hpage, hnew⟩ := hfresh page content halloc
    obtain ⟨herror, _⟩ := @Rep.grow _ _ _ _ content hinv.rep hpage hnew
    have hgrown := @Rep.find_grown _ _ _ _ _ content hinv.rep hle hpage hnew
    rw [if_neg (not_not_intro herror)]
    by_cases hsize : size ≤ 4088
    · rw [if_pos (hgrown.mpr hsize)]
      exact iff_of_true (fun h => absurd rfl h) (.inl hsize)
    rw [if_neg fun h => hsize (hgrown.mp h)]
    refine iff_of_false ?_ ?_
    · intro h
      cases (h (show (-ENOMEM : Int) ≠ 0 by decide)).1.2
    rintro (h | h)
    · exact hsize h
    · cases h
  rw [if_pos hfound]
  refine iff_of_true (fun h => absurd rfl h) (.inl ?_)
  rcases hinv.rep.find (ALIGN size XV_ALIGN) with ⟨i, _, _, hi, hidx, _⟩ | ⟨_, hfind⟩
  · have hi : i < 508 := hi
    exact (get_index_le_iff hle).mp (by omega)
  rw [hfind] at hfound
  exact absurd rfl hfound

/-- The first call on a new pool, when there is no page. -/
theorem xv_malloc_failure_first :
    let w : World := { st := xv_create_pool fun _ _ => 0, live := [] }
    (xv_malloc w.st 100 0 none).1 = -12 ∧
    ((find_block w.st.pool (ALIGN 100 XV_ALIGN)).2.1 = 0 ∧ (none : PageAlloc) = none) ∧
      (xv_malloc w.st 100 0 none).2.2.pages.length = w.st.pages.length := by
  refine ⟨by decide, ?_⟩
  exact (xv_malloc_failure (.of_init ⟨_, rfl⟩) (fun _ _ h => by cases h) (by decide)
    (by decide)).mpr (.inr rfl) (by decide)

/-- **The largest objects**: `alloc_page` hands out a page, the call fails all the
same, and the page stays with the pool. -/
theorem xv_malloc_largest :
    ∃ (w : World) (alloc_page : PageAlloc), xvmalloc.Reachable w ∧ alloc_page.Fresh w.st.pages ∧
      alloc_page ≠ none ∧ (xv_malloc w.st XV_MAX_ALLOC_SIZE 0 alloc_page).1 = -12 ∧
      w.st.pages.length = 0 ∧
      (xv_malloc w.st XV_MAX_ALLOC_SIZE 0 alloc_page).2.2.pages.length = 1 := by
  refine ⟨{ st := xv_create_pool fun _ _ => 0, live := [] }, some (1, fun _ => 0),
    .of_init ⟨_, rfl⟩, by decide, by simp, by decide +kernel, rfl, by decide +kernel⟩

end failing

end Nubernel.Xvmalloc
