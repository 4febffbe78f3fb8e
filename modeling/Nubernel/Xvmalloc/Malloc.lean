import Nubernel.Xvmalloc.Pool

/-! # xvmalloc: allocating

`xv_malloc` keeps what holds of a pool, and hands out a block that was not in
use. A block that is larger than needed is cut; its end becomes a free
block.
-/

open Function List Option

namespace Nubernel.Xvmalloc

/-! ## A block is taken -/

section rep
variable {s : State} {lay : Nat → Layout} {L : Nat → List Addr} {H U : Addr → Prop}

theorem mark_used_writes {n : Addr} {orig : Nat} (horig : orig < 2 ^ 16) :
    Writes s.mem (mark_used s n orig).mem n { hdr s.mem n with size := orig, free := false } := by
  have hw := (@set_size_writes s.mem n _ horig).trans (@clear_free_writes (set_size s.mem n orig) n)
  rw [(@set_size_writes s.mem n _ horig).hdr] at hw
  exact hw

section
variable {p o : Nat} {h : Hdr}
variable (hrep : Rep s lay L (fun _ => False) fun x => x = (p, o)) (hp : p ∈ s.pages)
variable (ho : lay p o = some h) (hfree : h.free = true)
include hrep hp ho hfree

/-- **An exact fit.** -/
theorem Rep.take_exact {orig : Nat} (hfit : h.size = ALIGN orig XV_ALIGN) (horig : orig ≤ 4092) :
    Rep (mark_used (split_block s p o (ALIGN orig XV_ALIGN)) (p, o) orig)
      (update lay p (told (lay p) o { h with size := orig, free := false } (o + h.span)
        fun n => { n with prevFree := false })) L (fun _ => False) fun _ => False := by
  have htiles := hrep.tiles p hp
  have hhdr := hrep.heads p o h hp ho
  have hmax := htiles.size_le ho
  have hspan := Hdr.span_of_aligned (htiles.freeSize ho hfree)
  have hspan' : ({ h with size := orig, free := false } : Hdr).span = h.span := by
    show ALIGN orig XV_ALIGN + XV_ALIGN = h.span
    rw [hspan, ← hfit]
    rfl
  have htell : Tells lay p (o + h.span) (fun n => { n with prevFree := false }) s
      (split_block s p o (ALIGN orig XV_ALIGN)) := by
    refine @Rep.tell _ _ _ _ _ _ _ _ _ _ _ (clear_flag s.mem (p, o + h.span) .PREV_FREE) hrep hp ho
      ?_ ?_
    · intro n hn
      have hw := @clear_prevFree_writes s.mem ((p, o + h.span))
      rw [hrep.heads p _ n hp hn] at hw
      exact hw
    have hsub : sub32 (size s.mem (p, o)) (ALIGN orig XV_ALIGN) = 0 := by
      rw [size_eq, hhdr, hfit, sub32_eq (by omega) (Nat.le_refl _), Nat.sub_self]
    have hoff : o + ALIGN orig XV_ALIGN + XV_ALIGN = o + h.span := by
      rw [hspan, ← hfit]
      unfold XV_ALIGN
      omega
    unfold split_block
    simp [hsub, hoff]
  generalize split_block s p o (ALIGN orig XV_ALIGN) = t at htell ⊢
  have hal := htiles.aligned ho
  have hmod := h.span_mod
  have hwrites := @mark_used_writes t ((p, o)) orig (by omega)
  have hto : hdr t.mem (p, o) = h := by
    rw [htell.other fun _ => by omega]
    exact hhdr
  rw [hto] at hwrites
  refine hrep.settled (fun _ hx => absurd hx id) htell.pages (by
      show t.pool.total_pages = _
      rw [htell.pool]) hp ho hspan' rfl rfl (fun hf => by cases hf) (fun hf => by cases hf)
    (fun hf => by cases hf) (fun _ => rfl) (fun _ => rfl) ?_ ?_ hwrites.hdr ?_ ?_ ?_
  · intro n hn
    exact ⟨rfl, fun hf => by cases hf⟩
  · have hno : ∀ x, Listed L x → ∀ y n, lay p y = some n → ¬LinkWord x p (y / 4) :=
      fun x hx y n hn => hrep.header_not_link hx hn
    exact (hrep.lists.told hno htell).write hno ho hwrites
  · intro n hn
    rw [hwrites.other fun _ => by omega]
    exact htell.hdr n hn
  · intro q x hx hq hlay hne hne'
    rw [hwrites.other (hrep.header_ne hp hal hlay hne),
      htell.other (hrep.header_ne hp (by omega) hlay hne')]
  intro i x hi
  rw [hrep.coupled i x hi]
  constructor
  · exact .inl
  rintro (hb | ⟨_, hf, _⟩)
  · exact hb
  · cases hf

/-- The layout in which the end of a free block is a block of its own. -/
def cut (lay : Layout) (o : Nat) (h : Hdr) (orig rest : Nat) : Layout :=
  Function.update (Function.update lay o (some { h with size := orig, free := false }))
    (o + (ALIGN orig XV_ALIGN + XV_ALIGN)) (some ⟨rest, true, false, o⟩)

omit hrep hp ho hfree in
theorem rest_writes {mem : Mem} {b : Addr} {rest o : Nat} (hrest : rest < 2 ^ 16)
    (hal : o % 4 = 0) (hlt : o < 2 ^ 16) :
    Writes mem (set_blockprev (clear_flag (set_flag (set_size mem b rest) b .BLOCK_FREE) b
      .PREV_FREE) b o) b ⟨rest, true, false, o⟩ := by
  have h₁ := @set_size_writes mem b _ hrest
  have h₂ := @set_free_writes (set_size mem b rest) b
  have h₃ := @clear_prevFree_writes (set_flag (set_size mem b rest) b .BLOCK_FREE) b
  have h₄ := @set_blockprev_writes (clear_flag (set_flag (set_size mem b rest) b .BLOCK_FREE) b .PREV_FREE) b _ hal hlt
  rw [h₁.hdr] at h₂
  rw [h₂.hdr] at h₃
  rw [h₃.hdr] at h₄
  exact ((h₁.trans h₂).trans h₃).trans h₄

variable {orig rest T : Nat} (hTeq : o + (ALIGN orig XV_ALIGN + XV_ALIGN) = T)
variable (hfit : ALIGN orig XV_ALIGN + XV_ALIGN + rest = h.size)

omit hrep hp ho hfree in
include hTeq in
theorem cut_at (hal : o % 4 = 0) : T % 4 = 0 ∧ o + 4 ≤ T := by
  rw [ALIGN_four] at hTeq
  unfold XV_ALIGN at hTeq
  omega

include hTeq hfit

/-- The pool as it would be if the header of a block that is cut were written at
once, before its end goes into a list. -/
theorem Rep.of_cut {memT memV : Mem} (hT : Writes s.mem memT (p, T) ⟨rest, true, false, o⟩)
    (hV : Writes memT memV (p, o) { h with size := orig, free := false }) :
    Rep { s with mem := memV } (update lay p (cut (lay p) o h orig rest)) L
      (fun x => x = (p, T)) fun x => x = (p, T) := by
  have htiles := hrep.tiles p hp
  have hsplit := htiles.split ho hfree hfit
  have hspan := Hdr.span_of_aligned (htiles.freeSize ho hfree)
  have hal := htiles.aligned ho
  obtain ⟨hmod, hpos⟩ := cut_at hTeq hal
  unfold Xvmalloc.cut at *
  rw [hTeq] at hsplit ⊢
  -- The new header is inside the block.
  have hin : InTile (lay p) o (T / 4) := ⟨h, ho, by omega, by omega⟩
  have hnone : lay p T = none := htiles.none_inside ho (by omega) (by omega)
  have hsame : ∀ q x hx, q ∈ s.pages → lay q x = some hx → (q, x) ≠ (p, o) →
      hdr memV (q, x) = hdr s.mem (q, x) := by
    intro q x hx hq hlay hne
    rw [hV.other (hrep.header_ne hp hal hlay hne), hT.other (hrep.header_ne hp (by omega) hlay ?_)]
    intro heq
    rw [show q = p from congrArg Prod.fst heq, show x = T from congrArg Prod.snd heq, hnone] at hlay
    cases hlay
  refine hrep.assemble rfl rfl ?_ ?_ ?_ ?_ ?_ ?_
  · refine hrep.lists.write_headers (P := fun page w => page = p ∧
      (w = o / 4 ∨ w = T / 4)) ?_ ?_
    · rintro x hx page w ⟨rfl, rfl | rfl⟩
      · exact hrep.header_not_link hx ho
      refine hrep.not_link hx hin ?_
      intro heq
      exact absurd heq (hrep.of_listed hx).2.choose_spec.2.2.2
    intro page w hne
    show memV page w = _
    rw [hV.frame page w fun heq => hne ⟨heq.1, .inl heq.2⟩,
      hT.frame page w fun heq => hne ⟨heq.1, .inr heq.2⟩]
  · intro q x hx hq hqp hlay
    exact hsame q x hx hq hlay fun heq => hqp (congrArg Prod.fst heq)
  · intro x hx hlay
    by_cases hxt : x = T
    · subst hxt
      rw [update_self, Option.some.injEq] at hlay
      rw [hV.other fun _ => by omega, hT.hdr, hlay]
    rw [update_of_ne hxt] at hlay
    by_cases hxo : x = o
    · subst hxo
      rw [update_self, Option.some.injEq] at hlay
      rw [hV.hdr, hlay]
    rw [update_of_ne hxo] at hlay
    rw [hsame p x hx hp hlay fun heq => hxo (congrArg Prod.snd heq)]
    exact hrep.heads p x hx hp hlay
  · exact hsplit.weaken fun x _ _ hx => by rw [hx]
  · intro q x _ hx
    exact absurd hx id
  intro i x hi
  rw [hrep.coupled i x hi]
  by_cases hxt : x = (p, T)
  · subst hxt
    refine iff_of_false (fun hb => not_belongs ?_ hb.1) fun hb => hb.2 rfl
    intro n hn
    rw [show lay p T = some n from hn] at hnone
    cases hnone
  rw [and_iff_left hxt, belongs_cell hxt]
  by_cases hxo : x = (p, o)
  · subst hxo
    refine iff_of_false (fun hb => hb.2 rfl) (not_belongs ?_)
    intro n hn
    rw [update_self, update_self, Option.some.injEq] at hn
    rw [← hn]
  rw [and_iff_left hxo, belongs_cell hxo, update_eq_self]

/-- **A block is cut**, and its end becomes a free block. -/
theorem Rep.take_split (horig : orig ≤ 4092) :
    ∃ L', Rep (mark_used (split_block s p o (ALIGN orig XV_ALIGN)) (p, o) orig)
      (update lay p (told (cut (lay p) o h orig rest) T ⟨rest, true, false, o⟩ (o + h.span)
        fun n => { n with prev := T })) L' (fun _ => False) fun _ => False := by
  have htiles := hrep.tiles p hp
  have hhdr := hrep.heads p o h hp ho
  have hin := htiles.inside ho
  have hsize := htiles.freeSize ho hfree
  have hspan := Hdr.span_of_aligned hsize
  have hal := htiles.aligned ho
  unfold PAGE_SIZE at hin
  have hrest : rest < 2 ^ 16 := by omega
  obtain ⟨hmod, hpos⟩ := cut_at hTeq hal
  have hT := @rest_writes s.mem ((p, T)) _ _ hrest hal (show o < 2 ^ 16 by omega)
  generalize hmemT : set_blockprev (clear_flag (set_flag (set_size s.mem (p, T) rest) (p, T)
    .BLOCK_FREE) (p, T) .PREV_FREE) (p, T) o = memT at hT
  have hV := @mark_used_writes ({ s with mem := memT }) ((p, o)) orig (by omega)
  have hTo : hdr memT (p, o) = h := by
    rw [hT.other fun _ => by omega]
    exact hhdr
  rw [hTo] at hV
  have hcut := hrep.of_cut hp ho hfree hTeq hfit hT hV
  have htiles' := hcut.tiles p hp
  have hspanT : (⟨rest, true, false, o⟩ : Hdr).span = rest + 4 := by
    refine Hdr.span_of_aligned (h := ⟨rest, true, false, o⟩) ?_
    simp only
    omega
  have hend : T + (⟨rest, true, false, o⟩ : Hdr).span = o + h.span := by
    rw [hspanT, hspan]
    omega
  have hlayT : update lay p (cut (lay p) o h orig rest) p T = some ⟨rest, true, false, o⟩ := by
    rw [update_self, ← hTeq]
    exact update_self _ _ _
  have hlayo : update lay p (cut (lay p) o h orig rest) p o =
      some { h with size := orig, free := false } := by
    rw [update_self]
    unfold cut
    rw [update_of_ne (by omega), update_self]
  have hlistsT : FreeLists s.pool memT L := by
    apply hcut.write_header hp hlayo
    intro page w hne
    exact (hV.frame page w hne).symm
  obtain ⟨L', hL', hpages, htotal, hkeep⟩ := hcut.list_block hp hlayT (by simp only; omega)
    (t := { s with mem := memT }) hlistsT (by rw [size_eq, hT.hdr]) rfl
  generalize ht₁ : (if size memT (p, T) ≥ XV_MIN_ALLOC_SIZE
    then insert_block { s with mem := memT } p T (p, T) else { s with mem := memT }) = t₁
    at hL' hpages htotal hkeep
  have hT₁ : hdr t₁.mem (p, T) = ⟨rest, true, false, o⟩ := by
    rw [hkeep p T _ hp hlayT]
    exact hT.hdr
  -- The block behind.
  have hfit' : ∀ n, update lay p (cut (lay p) o h orig rest) p (o + h.span) = some n →
      hdr t₁.mem (p, o + h.span) = n := by
    intro n hn
    rw [hkeep p _ n hp hn, ← hV.other fun _ => by omega]
    exact hcut.heads p _ n hp hn
  have htell : Tells (update lay p (cut (lay p) o h orig rest)) p (o + h.span)
      (fun n => { n with prev := T }) t₁ (split_block s p o (ALIGN orig XV_ALIGN)) := by
    rw [← hend]
    refine @Rep.tell _ _ _ _ _ _ _ _ _ _ _ (set_blockprev t₁.mem (p, o + h.span) T) hcut hp hlayT
      ?_ ?_
    · rw [hend]
      intro n hn
      have hw := @set_blockprev_writes t₁.mem ((p, o + h.span)) _
        (show T % 4 = 0 by omega) (show T < 2 ^ 16 by omega)
      rw [hfit' n hn] at hw
      exact hw
    rw [hend]
    have hsub : sub32 (size s.mem (p, o)) (ALIGN orig XV_ALIGN) = rest + XV_ALIGN := by
      rw [size_eq, hhdr, sub32_eq (by omega) (by omega)]
      omega
    have hsub' : sub32 (rest + XV_ALIGN) XV_ALIGN = rest := by
      rw [sub32_eq (by omega) (by omega), Nat.add_sub_cancel]
    have hoff : o + ALIGN orig XV_ALIGN + XV_ALIGN = T := by omega
    have hne : ¬rest + XV_ALIGN = 0 := by
      unfold XV_ALIGN
      omega
    have hend' : T + XV_ALIGN + rest = o + h.span := by
      unfold XV_ALIGN
      omega
    unfold split_block
    simp only [hsub, hsub', hoff, hmemT, ne_eq, hne, not_false_eq_true, if_true, ht₁]
    unfold BLOCK_NEXT
    simp [size_eq, hT₁, hend', show T + rest + XV_ALIGN = o + h.span by omega]
  generalize split_block s p o (ALIGN orig XV_ALIGN) = u at htell ⊢
  have huo : hdr u.mem (p, o) = h := by
    rw [htell.other fun _ => by omega, hkeep p o _ hp hlayo]
    exact hTo
  have hwrites := @mark_used_writes u ((p, o)) orig (by omega)
  rw [huo] at hwrites
  have hlayN : ∀ n, update lay p (cut (lay p) o h orig rest) p (o + h.span) = some n →
      lay p (o + h.span) = some n := by
    intro n hn
    rw [update_self] at hn
    unfold cut at hn
    rw [hTeq, update_of_ne (by omega), update_of_ne (by omega)] at hn
    exact hn
  refine ⟨L', ?_⟩
  have hfinal := @Rep.settled _ _ _ _ _ (mark_used u (p, o) orig) _ _ _ (⟨rest, true, false, o⟩) (fun n => { n with prev := T }) L' hcut (fun _ hx => hx)
    (htell.pages.trans hpages) (by
      show u.pool.total_pages = _
      rw [htell.pool]
      exact htotal) hp hlayT rfl rfl rfl (fun _ => by simp only; omega) ?_ ?_ (fun _ => rfl)
    (fun _ => rfl) ?_ ?_ ?_ ?_ ?_ ?_
  · rw [update_idem, update_self, hend] at hfinal
    exact hfinal
  · intro _ x hx hlay hendx
    cases hf : hx.free with
    | false => rfl
    | true =>
      rw [← hendx] at hlayT
      have := htiles'.apart hlay hlayT hf
      cases this
  · intro _ n hn
    exact htiles'.apart hlayT hn rfl
  · intro n hn
    rw [hend] at hn
    have hprev := htiles.prev id ho (hlayN n hn)
    rw [hfree] at hprev
    exact ⟨hprev.1, fun _ => rfl⟩
  · have hno : ∀ x, Listed L' x → ∀ y n, _ → ¬LinkWord x p (y / 4) := fun x hx y n =>
      hL'.noHeader x hx p y n hp
    exact (hL'.lists.told hno htell).write hno hlayo hwrites
  · rw [hwrites.other fun _ => by omega, htell.other fun _ => by omega]
    exact hT₁
  · intro n hn
    rw [hend] at hn ⊢
    rw [hwrites.other fun _ => by omega]
    exact htell.hdr n hn
  · intro q x hx hq hlay hne hne'
    rw [hend] at hne'
    by_cases hxo : (q, x) = (p, o)
    · cases hxo
      rw [hwrites.hdr, hV.hdr]
    have hapart := hcut.header_ne hp hal hlay hxo
    rw [hwrites.other hapart, htell.other (hcut.header_ne hp (by omega) hlay hne'),
      hkeep q x hx hq hlay]
    exact (hV.other hapart).symm
  intro i x hi
  rw [hL'.coupled i x hi]
  simp

end

variable {p o orig : Nat} {h : Hdr}

/-- What is in use after a block has been cut, other than at the cut. -/
theorem used_cut {rest q x sz : Nat} (hne : (q, x) ≠ (p, o + (ALIGN orig XV_ALIGN + XV_ALIGN))) :
    Used (update lay p (cut (lay p) o h orig rest)) q x sz ↔
      if (q, x) = (p, o) then orig = sz else Used lay q x sz := by
  unfold cut
  rw [used_cell hne]
  by_cases hxo : (q, x) = (p, o)
  · cases hxo
    rw [if_pos rfl, used_of_block (by rw [update_self, update_self]), and_iff_right rfl]
  rw [if_neg hxo, used_cell hxo, update_eq_self]

theorem split_block_pages (p o size : Nat) : (split_block s p o size).pages = s.pages := by
  unfold split_block
  simp only
  repeat' split
  all_goals rfl

/-- **A block is handed out.** -/
theorem Rep.take {n : Addr} {i : Nat} {rest : List Addr}
    (hrep : Rep s lay L (fun _ => False) fun _ => False) (hi : i < NUM_FREE_LISTS)
    (hlist : L i = n :: rest) (hindex : get_index (ALIGN orig XV_ALIGN) ≤ i) (horig : orig ≤ 4092) :
    n.1 ∈ s.pages ∧ (∀ sz, ¬Used lay n.1 n.2 sz) ∧ (take_block s i n orig).pages = s.pages ∧
    ∃ lay' L', Rep (take_block s i n orig) lay' L' (fun _ => False) (fun _ => False) ∧
      ∀ q x sz, q ∈ s.pages →
        (Used lay' q x sz ↔ Used lay q x sz ∨ (q, x) = n ∧ sz = orig) := by
  have hn : n ∈ L i := by
    rw [hlist]
    exact mem_cons_self
  obtain ⟨⟨hp, h, ho, hfree, hmin, hidx⟩, _⟩ := (hrep.coupled i n hi).mp hn
  have hrep₁ := @Rep.weaken _ _ _ _ _ (fun _ => False) (fun x => x = n) (hrep.remove_head hi hlist)
    (fun _ _ _ _ _ hx => hx) fun _ _ _ => by rw [false_or]
  obtain ⟨hpages, _⟩ := remove_block_head_pages (s := s) n i
  obtain ⟨p, o⟩ := n
  have htiles := hrep.tiles p hp
  have hmax := htiles.size_le ho
  have hsize := htiles.freeSize ho hfree
  have hspan := Hdr.span_of_aligned hsize
  have hle : ALIGN orig XV_ALIGN ≤ h.size := by
    rw [← hidx] at hindex
    refine size_of_index ?_ hmin hmax hindex
    rw [ALIGN_four]
    omega
  have hnot := not_used_of_free ho hfree
  have hused : ∀ q x sz, (if (q, x) = (p, o) then orig = sz else Used lay q x sz) ↔
      Used lay q x sz ∨ (q, x) = (p, o) ∧ sz = orig := by
    intro q x sz
    by_cases hqx : (q, x) = (p, o)
    · cases hqx
      simp [hnot sz, eq_comm]
    simp [hqx]
  refine ⟨hp, hnot, ?_, ?_⟩
  · show (split_block (remove_block_head s (p, o) i) p o _).pages = _
    rw [split_block_pages]
    exact hpages
  rw [← hpages] at hp ⊢
  by_cases hfit : h.size = ALIGN orig XV_ALIGN
  · refine ⟨_, _, hrep₁.take_exact hp ho hfree hfit horig, ?_⟩
    intro q x sz _
    rw [used_told, used_self, ← hused]
    · simp
    · exact fun _ => rfl
    · exact fun _ => rfl
  have hmod : (ALIGN orig XV_ALIGN) % 4 = 0 := by
    rw [ALIGN_four]
    omega
  obtain ⟨rest', hrest'⟩ : ∃ rest', ALIGN orig XV_ALIGN + XV_ALIGN + rest' = h.size := by
    refine ⟨h.size - (ALIGN orig XV_ALIGN + XV_ALIGN), ?_⟩
    unfold XV_ALIGN at *
    omega
  obtain ⟨L', hrep'⟩ := hrep₁.take_split hp ho hfree rfl hrest' horig
  refine ⟨_, L', hrep', ?_⟩
  have hxv : XV_ALIGN = 4 := rfl
  have hnone : lay p (o + (ALIGN orig XV_ALIGN + XV_ALIGN)) = none :=
    htiles.none_inside ho (by omega) (by omega)
  intro q x sz _
  rw [used_told]
  rotate_left
  · exact fun _ => rfl
  · exact fun _ => rfl
  by_cases hqt : (q, x) = (p, o + (ALIGN orig XV_ALIGN + XV_ALIGN))
  · cases hqt
    rw [if_pos rfl]
    constructor
    · rintro ⟨hf, _⟩
      cases hf
    rintro (⟨h', ho', _⟩ | ⟨heq, _⟩)
    · rw [hnone] at ho'
      cases ho'
    have := congrArg Prod.snd heq
    omega
  rw [if_neg hqt, used_cut hqt]
  exact hused q x sz

/-! ## Growing -/

/-- The block that was left out is in its list. -/
theorem Rep.of_lists {t : State} {L' : Nat → List Addr} (hrep : Rep s lay L H fun x => x = (p, o))
    (hp : p ∈ s.pages) (ho : lay p o = some h) (hfree : h.free = true)
    (hlists : Lists s t lay p o h L') (hpages : t.pages = s.pages)
    (htotal : t.pool.total_pages = s.pool.total_pages)
    (hkeep : ∀ q y hy, q ∈ s.pages → lay q y = some hy → hdr t.mem (q, y) = hdr s.mem (q, y)) :
    Rep t lay L' H fun _ => False := by
  refine ⟨?_, ?_, hlists.lists, ?_, ?_, ?_, ?_⟩
  · intro q y hy hq hlay
    rw [hpages] at hq
    rw [hkeep q y hy hq hlay]
    exact hrep.heads q y hy hq hlay
  · rw [hpages]
    exact hrep.tiles
  · intro i x hi
    rw [hlists.coupled i x hi, hpages, and_iff_left (fun h => h)]
    constructor
    · rintro (⟨hb, _⟩ | ⟨rfl, hmin, hidx⟩)
      · exact hb
      · exact (belongs_of_block ho).mpr ⟨hp, hfree, hmin, hidx⟩
    intro hb
    by_cases hx : x = (p, o)
    · subst hx
      exact .inr ⟨rfl, ((belongs_of_block ho).mp hb).2.2⟩
    exact .inl ⟨hb, hx⟩
  · rw [hpages]
    exact hrep.nonzero
  · rw [hpages]
    exact hrep.nodup
  rw [hpages, htotal]
  exact hrep.total

/-- The layout of a new page. -/
def freshLayout : Layout := Function.update (fun _ => none) 0 (some ⟨4092, true, false, 0⟩)

/-- **`grow_pool`** adds a page that is one free block. -/
theorem Rep.grow {page : Nat} {content : Nat → Nat}
    (hrep : Rep s lay L (fun _ => False) fun _ => False) (hpage : page ≠ 0)
    (hnew : page ∉ s.pages) :
    (grow_pool s (some (page, content))).1 = 0 ∧
    (grow_pool s (some (page, content))).2.pages = page :: s.pages ∧
    ∃ L', Rep (grow_pool s (some (page, content))).2 (update lay page freshLayout) L'
      (fun _ => False) (fun _ => False) ∧ L' 507 ≠ [] := by
  have hw := @rest_writes (update s.mem page content) ((page, 0)) 4092 0 (by decide) (by decide) (by decide)
  generalize hmem : set_blockprev (clear_flag (set_flag (set_size
    (update s.mem page content) (page, 0) 4092) (page, 0) .BLOCK_FREE) (page, 0)
    .PREV_FREE) (page, 0) 0 = mem₁ at hw
  have hother : ∀ q w, q ≠ page → mem₁ q w = s.mem q w := by
    intro q w hq
    rw [hw.frame q w fun heq => hq heq.1, update_of_ne hq]
  -- The page is there, and its block is not in a list yet.
  have hrep₁ : Rep ⟨{ s.pool with total_pages := add64 s.pool.total_pages 1 }, mem₁,
      page :: s.pages⟩ (update lay page freshLayout) L (fun _ => False)
      fun x => x = (page, 0) := by
    refine ⟨?_, ?_, ?_, ?_, ?_, ?_, ?_⟩
    · intro q o h hq hlay
      by_cases hqp : q = page
      · subst hqp
        rw [update_self] at hlay
        unfold freshLayout at hlay
        by_cases ho : o = 0
        · subst ho
          rw [update_self, Option.some.injEq] at hlay
          rw [hw.hdr, hlay]
        rw [update_of_ne ho] at hlay
        cases hlay
      rw [update_of_ne hqp] at hlay
      rw [hdr_congr (hother q _ hqp)]
      exact hrep.heads q o h ((mem_cons.mp hq).resolve_left hqp) hlay
    · intro q hq
      by_cases hqp : q = page
      · subst hqp
        rw [update_self]
        exact Tiles.single (by decide)
      rw [update_of_ne hqp]
      exact hrep.tiles q ((mem_cons.mp hq).resolve_left hqp)
    · refine FreeLists.of_pool (hrep.lists.frame fun x q w hx hlink => ?_)
      obtain ⟨rfl, _⟩ := hlink
      refine hother _ w ?_
      intro heq
      rw [← heq] at hnew
      exact hnew (hrep.of_listed hx).1
    · intro i x hi
      rw [hrep.coupled i x hi, and_iff_left (fun h => h)]
      by_cases hxp : x.1 = page
      · refine iff_of_false (fun hb => hnew (hxp ▸ hb.1)) ?_
        rintro ⟨⟨_, h, hlay, _⟩, hne⟩
        rw [hxp, update_self] at hlay
        unfold freshLayout at hlay
        rw [update_of_ne fun hy => hne (Prod.ext hxp hy)] at hlay
        cases hlay
      have hne : ¬x = (page, 0) := fun heq => hxp (by rw [heq])
      rw [and_iff_left hne]
      unfold Belongs
      rw [update_of_ne hxp, mem_cons, or_iff_right hxp]
    · exact forall_mem_cons.mpr ⟨hpage, hrep.nonzero⟩
    · exact nodup_cons.mpr ⟨hnew, hrep.nodup⟩
    show add64 s.pool.total_pages 1 = (s.pages.length + 1) % 2 ^ 64
    rw [hrep.total]
    unfold add64
    omega
  have hlay : update lay page freshLayout page 0 = some ⟨4092, true, false, 0⟩ := by
    rw [update_self]
    exact update_self _ _ _
  have hsize : size mem₁ (page, 0) = 4092 := by rw [size_eq, hw.hdr]
  obtain ⟨L', hL', hpages, htotal, hkeep⟩ := hrep₁.list_block mem_cons_self hlay
    (by decide) hrep₁.lists hsize rfl
  have hgrow : grow_pool s (some (page, content)) = (0,
      if size mem₁ (page, 0) ≥ XV_MIN_ALLOC_SIZE then insert_block
        ⟨{ s.pool with total_pages := add64 s.pool.total_pages 1 }, mem₁, page :: s.pages⟩ page 0
        (page, 0)
      else ⟨{ s.pool with total_pages := add64 s.pool.total_pages 1 }, mem₁,
        page :: s.pages⟩) := by
    rw [if_pos (by rw [hsize]; decide)]
    rw [← hmem]
    rfl
  rw [hgrow]
  refine ⟨rfl, hpages, L', hrep₁.of_lists mem_cons_self hlay rfl hL' hpages htotal hkeep, ?_⟩
  have hin : (page, 0) ∈ L' 507 :=
    (hL'.coupled 507 (page, 0) (by decide)).mpr (.inr ⟨rfl, by decide, by decide⟩)
  exact ne_nil_of_mem hin

/-- **`find_block`** finds the first block of the first list that will do. -/
theorem Rep.find (hrep : Rep s lay L H U) (size : Nat) :
    (∃ i n rest, i < NUM_FREE_LISTS ∧ get_index size ≤ i ∧ L i = n :: rest ∧ n.1 ≠ 0 ∧
      find_block s.pool size = (i, n)) ∨
    (∀ j, get_index size ≤ j → j < NUM_FREE_LISTS → L j = []) ∧
      find_block s.pool size = (0, 0, 0) := by
  rcases @Bitmaps.find_block _ _ size hrep.lists.bits with ⟨i, hle, ⟨hi, hne⟩, _, heq⟩ | ⟨hnone, heq⟩
  · left
    obtain ⟨n, rest, hlist⟩ := exists_cons_of_ne_nil hne
    have hhead := hrep.lists.head i hi
    rw [hlist, List.head?_cons] at hhead
    obtain ⟨hn, hn0⟩ := entry_eq_some.mp hhead
    exact ⟨i, n, rest, hi, hle, hlist, hn0, by rw [heq, hn]⟩
  right
  refine ⟨?_, heq⟩
  intro j hj hlt
  by_contra hne
  exact hnone j hj ⟨hlt, hne⟩

end rep

/-! ## `xv_malloc` -/

/-- A page that `alloc_page` may return. -/
def PageAlloc.Fresh (alloc_page : PageAlloc) (pages : List Nat) : Prop :=
  ∀ page content, alloc_page = some (page, content) → page ≠ 0 ∧ page ∉ pages

/-- The result of a call of `xv_malloc`. -/
inductive Malloc (s : State) (lay : Nat → Layout) (size : Nat) : Int → Addr → State → Prop
  /-- An object at `(p, o)`, which was no object before. -/
  | ok {p o : Nat} {s' : State} {lay' : Nat → Layout} {L' : Nat → List Addr} :
      0 < size → size ≤ XV_MAX_ALLOC_SIZE →
      Rep s' lay' L' (fun _ => False) (fun _ => False) → p ∈ s'.pages →
      (∀ q, q ∈ s.pages → q ∈ s'.pages) →
      (p ∈ s.pages → ∀ sz, ¬Used lay p o sz) →
      (∀ q x sz, q ∈ s'.pages →
        (Used lay' q x sz ↔ q ∈ s.pages ∧ Used lay q x sz ∨ (q, x) = (p, o) ∧ sz = size)) →
      Malloc s lay size 0 (p, o + XV_ALIGN) s'
  /-- No memory. -/
  | fail {s' : State} {lay' : Nat → Layout} {L' : Nat → List Addr} :
      Rep s' lay' L' (fun _ => False) (fun _ => False) →
      (∀ q, q ∈ s.pages → q ∈ s'.pages) →
      (∀ q x sz, q ∈ s'.pages → (Used lay' q x sz ↔ q ∈ s.pages ∧ Used lay q x sz)) →
      Malloc s lay size (-ENOMEM) (0, 0) s'

section malloc
variable {s : State} {lay : Nat → Layout} {L : Nat → List Addr}

/-- Nothing is in use on a new page. -/
theorem used_fresh {page q x sz : Nat} (hq : q ∈ page :: s.pages) (hnew : page ∉ s.pages) :
    Used (update lay page freshLayout) q x sz ↔ q ∈ s.pages ∧ Used lay q x sz := by
  by_cases hqp : q = page
  · subst hqp
    refine iff_of_false ?_ fun hold => hnew hold.1
    rintro ⟨h, hlay, hused, _⟩
    rw [update_self] at hlay
    unfold freshLayout at hlay
    by_cases hx : x = 0
    · subst hx
      rw [update_self, Option.some.injEq] at hlay
      subst hlay
      cases hused
    rw [update_of_ne hx] at hlay
    cases hlay
  have hold := (mem_cons.mp hq).resolve_left hqp
  unfold Used
  rw [update_of_ne hqp, and_iff_right hold]

/-- **`xv_malloc`** returns an object or an error. -/
theorem xv_malloc_spec {size flags : Nat} {alloc_page : PageAlloc}
    (hrep : Rep s lay L (fun _ => False) fun _ => False) (hfresh : alloc_page.Fresh s.pages) :
    Malloc s lay size (xv_malloc s size flags alloc_page).1 (xv_malloc s size flags alloc_page).2.1
      (xv_malloc s size flags alloc_page).2.2 := by
  have hsame : ∀ q x sz, q ∈ s.pages → (Used lay q x sz ↔ q ∈ s.pages ∧ Used lay q x sz) :=
    fun q x sz hq => ⟨fun hu => ⟨hq, hu⟩, fun h => h.2⟩
  unfold xv_malloc
  by_cases hsize : size = 0 ∨ size > XV_MAX_ALLOC_SIZE
  · rw [if_pos hsize]
    exact .fail hrep (fun _ hq => hq) hsame
  rw [if_neg hsize, not_or] at *
  have hmax : size ≤ 4092 := Nat.le_of_not_lt hsize.2
  rcases hrep.find (ALIGN size XV_ALIGN) with
    ⟨i, n, rest, hi, hle, hlist, hn0, hfind⟩ | ⟨hnone, hfind⟩
  · obtain ⟨hp, hnot, hpages, lay', L', hrep', hused⟩ := hrep.take hi hlist hle hmax
    simp only [hfind]
    rw [if_pos hn0]
    refine .ok (p := n.1) (o := n.2) (Nat.pos_of_ne_zero hsize.1) hmax hrep' ?_ ?_ (fun _ => hnot) ?_
    · rw [hpages]
      exact hp
    · rw [hpages]
      exact fun _ hq => hq
    intro q x sz hq
    rw [hpages] at hq
    rw [hused q x sz hq]
    exact or_congr_left (hsame q x sz hq)
  simp only [hfind]
  rw [if_neg (fun h => h rfl), if_neg (by rw [GFP_NOWAIT, Nat.and_zero]; exact fun h => h rfl)]
  cases halloc : alloc_page with
  | none => exact .fail hrep (fun _ hq => hq) hsame
  | some a => ?_
  obtain ⟨page, content⟩ := a
  obtain ⟨hpage, hnew⟩ := hfresh page content halloc
  obtain ⟨herr, hpages, L₁, hrep₁, _⟩ := @Rep.grow _ _ _ _ content hrep hpage hnew
  cases hgrow : grow_pool s (some (page, content)) with
  | mk err s₁ =>
  rw [hgrow] at herr hpages hrep₁
  subst herr
  simp only [ne_eq, not_true_eq_false, if_false]
  rcases hrep₁.find (ALIGN size XV_ALIGN) with
    ⟨i, n, rest, hi, hle, hlist, hn0, hfind₁⟩ | ⟨_, hfind₁⟩
  · obtain ⟨hp, hnot, hpages', lay', L', hrep', hused⟩ := hrep₁.take hi hlist hle hmax
    simp only [hfind₁]
    rw [if_pos hn0]
    refine .ok (p := n.1) (o := n.2) (Nat.pos_of_ne_zero hsize.1) hmax hrep' ?_ ?_ ?_ ?_
    · rw [hpages']
      exact hp
    · rw [hpages', hpages]
      exact fun _ hq => mem_cons_of_mem _ hq
    · intro hold sz hu
      refine hnot sz ((used_fresh ?_ hnew).mpr ⟨hold, hu⟩)
      exact mem_cons_of_mem _ hold
    intro q x sz hq
    rw [hpages'] at hq
    rw [hused q x sz hq, used_fresh (by rw [← hpages]; exact hq) hnew]
  simp only [hfind₁]
  rw [if_neg (by simp)]
  refine .fail hrep₁ ?_ ?_
  · rw [hpages]
    exact fun _ hq => mem_cons_of_mem _ hq
  intro q x sz hq
  exact used_fresh (by rw [← hpages]; exact hq) hnew

end malloc

end Nubernel.Xvmalloc
