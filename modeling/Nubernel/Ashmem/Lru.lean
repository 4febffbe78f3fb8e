import Mathlib.Algebra.BigOperators.Group.List.Basic
import Nubernel.Ashmem.Ranges

/-! # ashmem: the LRU list and its page count

`ashmem_lru_list` and `lru_count` are kept up to date range by range in
`lru_add`, `lru_del`, `range_shrink` and the shrinker. `Books` relates
them to a list of ranges. It does not depend on the order of that
list, so each update is checked on the range it touches, with the
ranges of all other areas as a frame.
-/

namespace Nubernel.Ashmem

open Arena LTS List Option

/-! ## Books -/

/-- The ranges of all areas. -/
def all_ranges (areas : List AshmemArea) : List AshmemRange :=
  areas.flatMap AshmemArea.unpinned_list

/-- The ranges that belong on the LRU list. -/
def evictable (rs : List AshmemRange) : List AshmemRange :=
  rs.filter fun r => decide (range_on_lru r)

/-- The number of pages they have. -/
def lru_pages (rs : List AshmemRange) : Nat := ((evictable rs).map range_size).sum

/-- The slab addresses of the areas `owners` and the ranges `rs`. -/
def slab (owners : List Nat) (rs : List AshmemRange) : List Nat :=
  owners ++ rs.map AshmemRange.addr

/-- The globals account for the ranges `rs` of the areas `owners`. -/
structure Books (owners : List Nat) (rs : List AshmemRange) (l : Lru) : Prop where
  nodup : (slab owners rs).Nodup
  fresh : ∀ x ∈ slab owners rs, x < l.next_addr
  list : l.ashmem_lru_list.Perm ((evictable rs).map AshmemRange.addr)
  count : l.lru_count = lru_pages rs % 2 ^ 32

@[simp] theorem evictable_cons (r : AshmemRange) (rs : List AshmemRange) :
    evictable (r :: rs) = if r.purged = false then r :: evictable rs else evictable rs := by
  simp [evictable, filter_cons]

theorem lru_pages_cons (r : AshmemRange) (rs : List AshmemRange) :
    lru_pages (r :: rs) = (if r.purged = false then range_size r else 0) + lru_pages rs := by
  unfold lru_pages
  rw [evictable_cons]
  split <;> simp

theorem lru_pages_perm {rs rs' : List AshmemRange} (h : rs.Perm rs') :
    lru_pages rs = lru_pages rs' :=
  ((h.filter _).map _).sum_eq

theorem range_size_lt (r : AshmemRange) : range_size r < 2 ^ 32 := add32_lt _ _

theorem slab_cons_perm (owners : List Nat) (r : AshmemRange) (rs : List AshmemRange) :
    (slab owners (r :: rs)).Perm (r.addr :: slab owners rs) := by
  simp [slab]

section books
variable {owners : List Nat} {rs rs' : List AshmemRange} {r : AshmemRange} {l : Lru}

theorem Books.perm (h : Books owners rs l) (hp : rs.Perm rs') : Books owners rs' l := by
  have hslab : (slab owners rs).Perm (slab owners rs') := (hp.map _).append_left owners
  refine ⟨hslab.nodup_iff.mp h.nodup, ?_, ?_, ?_⟩
  · exact fun x hx => h.fresh x (hslab.mem_iff.mpr hx)
  · exact h.list.trans ((hp.filter _).map _)
  · exact lru_pages_perm hp ▸ h.count

/-! ### The updates -/

section
variable (h : Books owners (r :: rs) l)
include h

/-- Dropping a range from the slab. -/
theorem Books.slab_of_cons :
    (slab owners rs).Nodup ∧ ∀ x ∈ slab owners rs, x < l.next_addr := by
  have hp := slab_cons_perm owners r rs
  refine ⟨((hp.nodup_iff.mp h.nodup).of_cons), fun x hx => h.fresh x ?_⟩
  exact hp.mem_iff.mpr (mem_cons_of_mem _ hx)

theorem Books.range_del : Books owners rs (range_del l r) := by
  obtain ⟨hnd, hfr⟩ := h.slab_of_cons
  have hl := h.list
  have hc := h.count
  rw [lru_pages_cons] at hc
  rw [evictable_cons] at hl
  unfold Ashmem.range_del
  by_cases hp : r.purged = false
  · rw [if_pos hp] at *
    refine ⟨hnd, hfr, ?_, ?_⟩
    · have := hl.erase r.addr
      simpa [lru_del, lru_sub] using this
    -- The count is right modulo the word, whether or not it has wrapped.
    exact sub32_add32 (by rw [hc, Nat.add_comm])
  rw [if_neg hp] at *
  exact ⟨hnd, hfr, hl, by simpa using hc⟩

omit h in
theorem Books.slab_fresh (h : Books owners rs l) :
    (l.next_addr :: slab owners rs).Nodup ∧
    ∀ x ∈ l.next_addr :: slab owners rs, x < l.next_addr + 1 := by
  refine ⟨nodup_cons.mpr ⟨fun hmem => ?_, h.nodup⟩, ?_⟩
  · exact Nat.lt_irrefl _ (h.fresh _ hmem)
  rw [forall_mem_cons]
  exact ⟨Nat.lt_succ_self _, fun x hx => Nat.lt_succ_of_lt (h.fresh x hx)⟩

omit h in
theorem Books.range_alloc {l' : Lru} {zalloc purged : Bool} {start stop : Nat}
    {new : AshmemRange} (h : Books owners rs l)
    (hal : range_alloc zalloc l purged start stop = some (new, l')) :
    Books owners (new :: rs) l' := by
  obtain ⟨hnd, hfr⟩ := h.slab_fresh
  have hl := h.list
  have hc := h.count
  obtain ⟨rfl, rfl⟩ := range_alloc_some hal
  have hp := slab_cons_perm owners ⟨l.next_addr, start, stop, purged⟩ rs
  refine ⟨hp.nodup_iff.mpr hnd, ?_, ?_, ?_⟩
  · intro x hx
    have := hfr x (hp.mem_iff.mp hx)
    split <;> simpa [lru_add] using this
  · cases purged with
    | false =>
      -- `list_add_tail`; the order on the list does not matter here.
      exact (perm_append_singleton _ _).trans (hl.cons _)
    | true => simpa using hl
  cases purged with
  | false =>
    simp only [if_true, lru_add, lru_pages_cons, hc, add32]
    omega
  | true => simpa [lru_pages_cons] using hc

theorem Books.range_shrink (start stop : Nat) :
    Books owners ((range_shrink l r start stop).1 :: rs) (range_shrink l r start stop).2 := by
  obtain ⟨hnd, hfr, hl, hc⟩ := h
  by_cases hp : r.purged = false
  · have hsh : (Ashmem.range_shrink l r start stop).2 =
        lru_sub l (sub32 (range_size r) (range_size { r with pgstart := start, pgend := stop })) :=
      if_pos hp
    rw [hsh]
    refine ⟨hnd, hfr, ?_, ?_⟩
    · simpa [hp, lru_sub] using hl
    simp only [lru_sub, lru_pages_cons, range_shrink_fst, hp, if_true, hc, sub32]
    omega
  have hsh : (Ashmem.range_shrink l r start stop).2 = l := if_neg hp
  rw [hsh]
  refine ⟨hnd, hfr, ?_, ?_⟩
  · simpa [hp] using hl
  · simpa [lru_pages_cons, hp] using hc

/-- The shrinker's update: the range stays, purged, and leaves the LRU list. -/
theorem Books.purge (hp : r.purged = false) :
    Books owners ({ r with purged := true } :: rs) (lru_del l r) := by
  have hdel := h.range_del
  rw [Ashmem.range_del, if_pos hp] at hdel
  refine ⟨h.nodup, h.fresh, ?_, ?_⟩
  · simpa using hdel.list
  · simpa [lru_pages_cons] using hdel.count

end

end books

/-! ## Ledgers

Two facts are kept over the operations: the books, and that no
subtraction has wrapped. The walk through the operations is done once,
for any predicate that the updates keep. -/

/-- What the operations need of a predicate. Its flag says whether the
operation has put new pages on the list; it does so at most once. -/
structure Ledger (P : Bool → List Nat → List AshmemRange → Lru → Prop) : Prop where
  books : ∀ {b os rs l}, P b os rs l → Books os rs l
  perm : ∀ {b os rs rs' l}, P b os rs l → rs.Perm rs' → P b os rs' l
  done : ∀ {os rs l}, P false os rs l → P true os rs l
  alloc : ∀ {os rs l zalloc purged start stop new l'}, P false os rs l →
    range_size ⟨l.next_addr, start, stop, purged⟩ ≤ 2 ^ 20 →
    range_alloc zalloc l purged start stop = some (new, l') → P true os (new :: rs) l'
  del : ∀ {b os r rs l}, P b os (r :: rs) l → P b os rs (range_del l r)
  shrink : ∀ {b os r rs l start stop}, P b os (r :: rs) l →
    range_size { r with pgstart := start, pgend := stop } ≤ range_size r →
    P b os ((range_shrink l r start stop).1 :: rs) (range_shrink l r start stop).2
  purge : ∀ {b os r rs l}, P b os (r :: rs) l → r.purged = false →
    P b os ({ r with purged := true } :: rs) (lru_del l r)
  opened : ∀ {os rs l}, P false os rs l →
    P true (os ++ [l.next_addr]) rs { l with next_addr := l.next_addr + 1 }
  closed : ∀ {b os os' rs l}, P b os rs l → os'.Sublist os → P b os' rs l

variable {size : Nat} {a : AshmemArea} {areas : List AshmemArea} {os : List Nat} {s : State}

variable {pgstart pgend : Nat}

/-- The size of an interval is computed without wrapping, the interval of
an area whose size has wrapped apart. -/
theorem Interval.size_eq (h : Interval size pgstart pgend) (addr : Nat) (purged : Bool) :
    range_size ⟨addr, pgstart, pgend, purged⟩ =
      if npages size = 0 then 0 else pgend + 1 - pgstart := by
  have hn := npages_lt size
  have hlast := h.le_last
  have hsucc := h.le_succ
  simp only [range_size, add32, sub32]
  split
  · have := h.wrapped (by assumption)
    omega
  rw [last_page_eq (by omega)] at hlast
  omega

theorem Interval.size_le (h : Interval size pgstart pgend) (addr : Nat)
    (purged : Bool) : range_size ⟨addr, pgstart, pgend, purged⟩ ≤ 2 ^ 20 := by
  have hn := npages_lt size
  have hlast := h.le_last
  rw [h.size_eq]
  split
  · omega
  rw [last_page_eq (by omega)] at hlast
  omega

theorem Interval.size_mono {s e s' e' : Nat} (h : Interval size s e)
    (h' : Interval size s' e') (hs : s ≤ s') (he : e' ≤ e) (addr : Nat) (purged : Bool) :
    range_size ⟨addr, s', e', purged⟩ ≤ range_size ⟨addr, s, e, purged⟩ := by
  rw [h.size_eq, h'.size_eq]
  split <;> omega

section ledger
variable {P : Bool → List Nat → List AshmemRange → Lru → Prop} (hP : Ledger P)
include hP

variable {zalloc : Bool} {pgstart pgend size : Nat} {rs fs : List AshmemRange} {l : Lru}

theorem PinRun.ledger {ret : Bool} {w : Walk Bool} (h : PinRun zalloc pgstart pgend rs l ret w)
    (hse : pgstart ≤ pgend) (hreq : Interval size pgstart pgend) (hok : RangesOk (Interval size) rs)
    (hl : P false os (rs ++ fs) l) : P true os (w.ranges ++ fs) w.lru := by
  have hlast := last_page_lt size
  -- the ranges the walk has passed join the frame
  have hpass : ∀ {b l r} {rs fs : List AshmemRange}, P b os (r :: (rs ++ fs)) l →
      P b os (rs ++ r :: fs) l := fun h => hP.perm h perm_middle.symm
  have hpass' : ∀ {b l r} {rs fs : List AshmemRange}, P b os (rs ++ r :: fs) l →
      P b os (r :: (rs ++ fs)) l := fun h => hP.perm h perm_middle
  -- what is left below the interval is smaller
  have hlow : ∀ {r : AshmemRange}, Interval size r.pgstart r.pgend → r.pgstart < pgstart →
      pgstart ≤ r.pgend → range_size { r with pgend := pgstart - 1 } ≤ range_size r :=
    fun hr h1 h2 => hr.size_mono ((Interval.intervalClass size).cut hr hreq le_rfl (by omega)
      (by omega) (by omega)) le_rfl (by omega) _ _
  induction h generalizing fs with
  | nil l ret => exact hP.done hl
  | stop r rs l ret _ => exact hP.done hl
  | skip r rs l ret w _ _ ih =>
    exact hpass' (ih hok.tail (hpass hl))
  | nuke r rs l ret w _ _ _ ih =>
    exact ih hok.tail (hP.del hl)
  | front r rs l ret w h1 h2 h3 _ ih =>
    obtain ⟨hr, _, hrs⟩ := RangesOk.cons_iff.mp hok
    have hle := hr.le_last
    have hcut := (Interval.intervalClass size).cut hr hreq (x := pgend + 1) (y := r.pgend)
      (by omega) (by omega) le_rfl (by omega)
    have hsz := hr.size_mono hcut (by omega) le_rfl r.addr r.purged
    rw [add32_one h3 (by omega)] at ih ⊢
    exact hpass' (ih hrs (hpass (hP.shrink hl hsz)))
  | rear r rs l ret w h1 h2 h3 _ ih =>
    obtain ⟨hr, _, hrs⟩ := RangesOk.cons_iff.mp hok
    have hle := hr.le_last
    have hsz := hlow hr h1 (by omega)
    rw [sub32_one h1 (by omega)] at ih ⊢
    exact hpass' (ih hrs (hpass (hP.shrink hl hsz)))
  | punch r new rs l l' ret h1 h2 hal =>
    obtain ⟨hr, _, hrs⟩ := RangesOk.cons_iff.mp hok
    have hle := hr.le_last
    have hnew := (Interval.intervalClass size).cut hr hreq (x := pgend + 1) (y := r.pgend)
      (by omega) (by omega) le_rfl (by omega)
    have hsz := hlow hr h1 (by omega)
    rw [add32_one h2 (by omega)] at hal
    rw [sub32_one h1 (by omega)]
    -- The upper part is a new range, before the lower one is shrunk.
    have hmid := hP.alloc hl (hnew.size_le _ _) hal
    exact hP.perm (hP.shrink (hP.perm hmid (.swap _ _ _)) hsz) (.swap _ _ _)
  | punch_nomem r rs l ret h1 h2 _ =>
    obtain ⟨hr, _, hrs⟩ := RangesOk.cons_iff.mp hok
    have hle := hr.le_last
    have hsz := hlow hr h1 (by omega)
    rw [sub32_one h1 (by omega)]
    exact hP.done (hP.shrink hl hsz)

theorem UnpinRun.ledger {purged : Bool} {w : Walk (Except Errno Int)}
    (h : UnpinRun zalloc pgstart pgend purged rs l w) (hse : Interval size pgstart pgend)
    (hok : RangesOk (Interval size) rs) (hl : P false os (rs ++ fs) l) :
    P true os (w.ranges ++ fs) w.lru := by
  induction h with
  | subsumed pgstart pgend purged rs l r _ _ _ _ => exact hP.done hl
  | insert pgstart pgend purged before after l l' new _ _ hal =>
    have := hP.alloc hl (hse.size_le _ _) hal
    exact hP.perm this (by simpa using perm_middle.symm)
  | nomem => exact hP.done hl
  | absorb pgstart pgend purged before after l r w _ _ _ _ ih =>
    -- The range that is absorbed leaves the books; the union enters them at the end.
    have hjoin := (Interval.intervalClass size).join (hok.interval r (by simp)) hse
    exact ih hjoin (hok.sublist (by simp)) (hP.del (r := r) (hP.perm hl (by simp)))

end ledger

/-! ## The globals over one operation -/

theorem all_ranges_perm {pre post : List AshmemArea} (a : AshmemArea) :
    (all_ranges (pre ++ a :: post)).Perm (a.unpinned_list ++ all_ranges (pre ++ post)) := by
  have : (pre ++ a :: post).Perm (a :: (pre ++ post)) := perm_middle
  simpa [all_ranges] using this.flatMap_right AshmemArea.unpinned_list

/-- The ranges of one area, with those of all other areas as the frame. -/
theorem all_ranges_frame (hnd : (areas.map AshmemArea.addr).Nodup) (ha : a ∈ areas) :
    ∃ fs, (all_ranges areas).Perm (a.unpinned_list ++ fs) ∧
      (∀ a', a'.addr = a.addr →
        (all_ranges (set_area areas a')).Perm (a'.unpinned_list ++ fs)) ∧
      all_ranges (free AshmemArea.addr a.addr areas) = fs := by
  obtain ⟨pre, post, hsplit, hmod, hfree⟩ := exists_split hnd ha
  refine ⟨all_ranges (pre ++ post), hsplit ▸ all_ranges_perm a, fun a' ha' => ?_, by rw [hfree]⟩
  rw [set_area, ha', hmod]
  exact all_ranges_perm a'

theorem map_addr_set_area {a' : AshmemArea} :
    (set_area areas a').map AshmemArea.addr = areas.map AshmemArea.addr :=
  map_key_modify fun _ _ => rfl

theorem map_addr_mark_purged (areas : List AshmemArea) (addr : Nat) :
    (mark_purged areas addr).map AshmemArea.addr = areas.map AshmemArea.addr := by
  simp [mark_purged]

theorem all_ranges_mark_purged (areas : List AshmemArea) (addr : Nat) :
    all_ranges (mark_purged areas addr) =
      Arena.modify AshmemRange.addr addr (fun r => { r with purged := true })
        (all_ranges areas) := by
  simp [all_ranges, mark_purged, Arena.modify, flatMap_map, map_flatMap]

variable {r : AshmemRange} {addr : Nat}

theorem find_range_mem (h : find_range areas addr = some (a, r)) :
    a ∈ areas ∧ r ∈ a.unpinned_list ∧ r.addr = addr := by
  obtain ⟨b, hb, heq⟩ := exists_of_findSome?_eq_some h
  obtain ⟨r', hr', hpair⟩ := map_eq_some_iff.mp heq
  obtain ⟨rfl, rfl⟩ := hpair
  exact ⟨hb, mem_of_at? hr'⟩

/-- An address on the LRU list is that of an unpurged range. -/
theorem Books.not_purged {rs : List AshmemRange} {l : Lru} (h : Books os rs l) (hr : r ∈ rs)
    (hlru : r.addr ∈ l.ashmem_lru_list) : r.purged = false := by
  obtain ⟨r', hr', heq⟩ := mem_map.mp (h.list.mem_iff.mp hlru)
  obtain ⟨hmem, hpurged⟩ := mem_filter.mp hr'
  have hnd : (rs.map AshmemRange.addr).Nodup := (nodup_append.mp h.nodup).2.1
  -- One address, one range.
  obtain rfl := inj_on_of_nodup_map hnd hmem hr heq
  simpa using hpurged

section ledger
variable {P : Bool → List Nat → List AshmemRange → Lru → Prop} (hP : Ledger P)
include hP

variable {b : Bool} {os : List Nat}

variable {l : Lru}

/-- One round of the shrinker's loop. -/
theorem Ledger.mark_purged (h : P b os (all_ranges areas) l) (hr : r ∈ all_ranges areas)
    (hlru : r.addr ∈ l.ashmem_lru_list) :
    P b os (all_ranges (mark_purged areas r.addr)) (lru_del l r) := by
  have hbooks := hP.books h
  have hnd : ((all_ranges areas).map AshmemRange.addr).Nodup :=
    (nodup_append.mp hbooks.nodup).2.1
  obtain ⟨pre, post, hsplit, hmod, _⟩ := exists_split hnd hr
  rw [all_ranges_mark_purged, hmod]
  have hfront : P b os (r :: (pre ++ post)) l := hP.perm h (hsplit ▸ perm_middle)
  exact hP.perm (hP.purge hfront (hbooks.not_purged hr hlru)) perm_middle.symm

theorem ashmem_shrink_loop_ledger {lru : List Nat} {nr_to_scan : Int} {areas' : List AshmemArea}
    {l' : Lru} (hlru : l.ashmem_lru_list = lru)
    (h : ashmem_shrink_loop lru nr_to_scan areas l = some (areas', l'))
    (hl : P b os (all_ranges areas) l) : P b os (all_ranges areas') l' := by
  induction lru generalizing nr_to_scan areas l with
  | nil =>
    simp only [ashmem_shrink_loop, Option.some.injEq, Prod.mk.injEq] at h
    exact h.1 ▸ h.2 ▸ hl
  | cons addr rest ih => ?_
  rw [ashmem_shrink_loop] at h
  split at h
  · cases h
  rename_i a r hfind
  obtain ⟨ha, hr, rfl⟩ := find_range_mem hfind
  have hmem : r ∈ all_ranges areas := mem_flatMap.mpr ⟨a, ha, hr⟩
  -- The shrinker takes the first entry, which is that of an unpurged range.
  have hnext := hP.mark_purged hl hmem (by simp [hlru])
  split at h
  · cases h
  simp only at h
  split at h
  · simp only [Option.some.injEq, Prod.mk.injEq] at h
    exact h.1 ▸ h.2 ▸ hnext
  exact ih (by simp [lru_del, lru_sub, hlru]) h hnext

theorem ashmem_release_ledger {rs fs : List AshmemRange}
    (hl : P b os (rs ++ fs) l) : P b os fs (rs.foldl range_del l) := by
  induction rs generalizing l with
  | nil => exact hl
  | cons r rs ih => exact ih (hP.del hl)

/-- **Step lemma**: what the updates keep, every operation keeps. -/
theorem OpStep.ledger {s' : State} {l : Label} (hstep : OpStep s l s')
    (hok : ListsOk Interval s.areas)
    (h : P false (s.areas.map AshmemArea.addr) (all_ranges s.areas) s.lru) :
    P true (s'.areas.map AshmemArea.addr) (all_ranges s'.areas) s'.lru := by
  have hnd : (s.areas.map AshmemArea.addr).Nodup :=
    (nodup_append.mp (hP.books h).nodup).1
  cases hstep with
  | same l => exact hP.done h
  | opened zalloc =>
    have := hP.opened h
    simpa [all_ranges] using this
  | released asma a ha =>
    obtain ⟨hmem, rfl⟩ := mem_of_at? ha
    obtain ⟨fs, hfs, _, hfree⟩ := all_ranges_frame hnd hmem
    simp only [hfree]
    -- All ranges of the area are deleted, one by one, before it is freed.
    refine hP.closed (hP.done (ashmem_release_ledger hP (hP.perm h hfs))) ?_
    exact map_key_free_sublist _ _
  | quiet l asma a a' ha haddr hlist _ _ =>
    obtain ⟨hmem, _⟩ := mem_of_at? ha
    obtain ⟨fs, hfs, hset, _⟩ := all_ranges_frame hnd hmem
    have hset' := hset a' haddr
    rw [hlist] at hset'
    simp only [map_addr_set_area]
    exact hP.done (hP.perm h (hfs.trans hset'.symm))
  | pinned asma a offset len zalloc pgstart pgend ha hfile hint =>
    obtain ⟨hmem, _⟩ := mem_of_at? ha
    obtain ⟨hrs, _⟩ := hok a hmem
    obtain ⟨fs, hfs, hset, _⟩ := all_ranges_frame hnd hmem
    have hreq := (pin_interval_spec hint).1
    simp only [map_addr_set_area]
    refine hP.perm ?_ (hset { a with
      unpinned_list := (ashmem_pin zalloc a.unpinned_list s.lru pgstart pgend).ranges } rfl).symm
    by_cases hse : pgstart ≤ pgend
    · exact (ashmem_pin_loop_run zalloc hse _ _ _).ledger hP hse hreq hrs (hP.perm h hfs)
    have hbehind := hrs.behind (Interval.intervalClass _) hreq (by omega)
    rw [ashmem_pin, ashmem_pin_loop_behind zalloc hbehind]
    exact hP.done (hP.perm h hfs)
  | unpinned asma a offset len zalloc pgstart pgend w ha hfile hint hrun =>
    obtain ⟨hmem, _⟩ := mem_of_at? ha
    obtain ⟨hrs, _⟩ := hok a hmem
    obtain ⟨fs, hfs, hset, _⟩ := all_ranges_frame hnd hmem
    simp only [map_addr_set_area]
    refine hP.perm ?_ (hset { a with unpinned_list := w.ranges } rfl).symm
    exact hrun.ledger hP (pin_interval_spec hint).1 hrs (hP.perm h hfs)
  | shrunk l nr_to_scan areas lru hloop =>
    have hnames : areas.map AshmemArea.addr = s.areas.map AshmemArea.addr :=
      ashmem_shrink_loop_areas
        (P := fun areas => areas.map AshmemArea.addr = s.areas.map AshmemArea.addr)
        (fun areas addr h => (map_addr_mark_purged areas addr).trans h) hloop rfl
    simp only [hnames]
    exact hP.done (ashmem_shrink_loop_ledger hP rfl hloop h)

end ledger

/-! ## The books over a run -/

theorem Books.ledger : Ledger fun _ => Books where
  books := fun h => h
  perm := fun h hp => h.perm hp
  done := fun h => h
  alloc := fun h _ hal => h.range_alloc hal
  del := fun h => h.range_del
  shrink := fun h _ => h.range_shrink _ _
  purge := fun h hp => h.purge hp
  opened := fun {os rs l} h => by
    obtain ⟨hnd, hfr⟩ := h.slab_fresh
    have hp : (slab (os ++ [l.next_addr]) rs).Perm (l.next_addr :: slab os rs) := by
      simp [slab]
    exact ⟨hp.nodup_iff.mpr hnd, fun x hx => hfr x (hp.mem_iff.mp hx), h.list, h.count⟩
  closed := fun {_ os os' rs l} h hsub => by
    have hs : (slab os' rs).Sublist (slab os rs) := hsub.append_right _
    exact ⟨h.nodup.sublist hs, fun x hx => h.fresh x (hs.subset hx), h.list, h.count⟩

/-- The globals of a state account for the ranges of all its areas. -/
def LruOk (s : State) : Prop :=
  Books (s.areas.map AshmemArea.addr) (all_ranges s.areas) s.lru

theorem lru_ok_reachable (h : ashmem.Reachable s) : LruOk s := by
  refine System.invariant_under (P := LruOk) (fun s hs => lists_ok_reachable hs) ?_ ?_ h
  · rintro _ rfl
    exact ⟨.nil, by simp [initialState, slab, all_ranges], .nil, rfl⟩
  intro s l s' hlists hs hstep
  exact (ashmem_step hstep).ledger Books.ledger hlists hs

variable {l : Lru}

theorem Books.find_range (h : Books os (all_ranges areas) l) (haddr : addr ∈ l.ashmem_lru_list) :
    ∃ a r, find_range areas addr = some (a, r) := by
  obtain ⟨r, hr, rfl⟩ := mem_map.mp (h.list.mem_iff.mp haddr)
  obtain ⟨a, ha, hra⟩ := mem_flatMap.mp (mem_of_mem_filter hr)
  cases hfind : Ashmem.find_range areas r.addr with
  | some p => exact ⟨p.1, p.2, rfl⟩
  | none => ?_
  rw [Ashmem.find_range, List.findSome?_eq_none_iff] at hfind
  have hnone := hfind a ha
  rw [map_eq_none_iff, at?, List.find?_eq_none] at hnone
  exact absurd (by simp) (hnone r hra)

theorem Books.pages_mark_purged (h : Books os (all_ranges areas) l) (hr : r ∈ all_ranges areas)
    (hlru : r.addr ∈ l.ashmem_lru_list) : lru_pages (all_ranges areas) =
      range_size r + lru_pages (all_ranges (mark_purged areas r.addr)) := by
  have hpurged := h.not_purged hr hlru
  obtain ⟨pre, post, hsplit, hmod, _⟩ := exists_split (nodup_append.mp h.nodup).2.1 hr
  rw [all_ranges_mark_purged, hmod, hsplit, lru_pages_perm perm_middle,
    lru_pages_perm perm_middle, lru_pages_cons, lru_pages_cons, if_pos hpurged]
  simp

/-- The loop finds a range of a backed area behind each entry, and goes on until it has purged
as many pages as it is asked for. -/
theorem ashmem_shrink_loop_returns {lru : List Nat} (hlru : l.ashmem_lru_list = lru)
    (hbooks : Books os (all_ranges areas) l) (hok : ListsOk Interval areas) (nr_to_scan : Int) :
    ∃ areas' l', ashmem_shrink_loop lru nr_to_scan areas l = some (areas', l') ∧
      (nr_to_scan = lru_pages (all_ranges areas) → nr_to_scan < 2 ^ 31 →
        lru_pages (all_ranges areas') = 0) := by
  induction lru generalizing nr_to_scan areas l with
  | nil =>
    refine ⟨areas, l, rfl, fun _ _ => ?_⟩
    have hlist := hbooks.list
    rw [hlru, nil_perm, map_eq_nil_iff] at hlist
    simp [lru_pages, hlist]
  | cons addr rest ih => ?_
  have haddr : addr ∈ l.ashmem_lru_list := by simp [hlru]
  obtain ⟨a, r, hfind⟩ := hbooks.find_range haddr
  obtain ⟨ha, hr, rfl⟩ := find_range_mem hfind
  -- An area with a range has a file to truncate.
  have hfile : a.file ≠ false := by
    intro hf
    rw [(hok a ha).2 hf] at hr
    simp at hr
  have hmem : r ∈ all_ranges areas := mem_flatMap.mpr ⟨a, ha, hr⟩
  have hnext : Books os (all_ranges (mark_purged areas r.addr)) (lru_del l r) :=
    Books.ledger.mark_purged (b := false) hbooks hmem haddr
  have hpages := hbooks.pages_mark_purged hmem haddr
  have hleft : nr_to_scan = lru_pages (all_ranges areas) → nr_to_scan < 2 ^ 31 →
      toInt32 (nr_to_scan - range_size r) = lru_pages (all_ranges (mark_purged areas r.addr)) := by
    intro hn hlt
    rw [toInt32_eq (by omega) (by omega)]
    omega
  simp only [ashmem_shrink_loop, hfind, if_neg hfile]
  split
  · refine ⟨_, _, rfl, fun hn hlt => ?_⟩
    have hz := hleft hn hlt
    omega
  obtain ⟨areas', l', hloop, hall⟩ :=
    ih (by simp [lru_del, lru_sub, hlru]) hnext (hok.mark_purged r.addr) _
  refine ⟨areas', l', hloop, fun hn hlt => ?_⟩
  have heq := hleft hn hlt
  exact hall heq (by omega)

/-- Books of at most `B` pages, one operation's worth of new pages apart,
kept without a wrap. -/
def Tally (B : Nat) (b : Bool) (os : List Nat) (rs : List AshmemRange) (l : Lru) : Prop :=
  Books os rs l ∧ lru_pages rs ≤ B + (if b then 2 ^ 20 else 0) ∧ l.underflow = false

/-- Subtracting at most what is there does not wrap. -/
theorem lru_sub_underflow {n : Nat} (h : l.underflow = false) (hn : n ≤ l.lru_count) :
    (lru_sub l n).underflow = false := by
  simp [lru_sub, h, hn]

theorem Tally.ledger {B : Nat} (hB : B + 2 ^ 20 < 2 ^ 32) : Ledger (Tally B) := by
  have hcount : ∀ {b os rs l}, Tally B b os rs l → l.lru_count = lru_pages rs := by
    rintro b os rs l ⟨hbooks, hle, _⟩
    have := hbooks.count
    -- There is room, so the remainder is the number itself.
    split at hle <;> omega
  -- the pages of an entry on the list are counted
  have hdel : ∀ {b os r rs l}, Tally B b os (r :: rs) l → r.purged = false →
      lru_pages rs ≤ B + (if b then 2 ^ 20 else 0) ∧ (lru_del l r).underflow = false := by
    intro b os r rs l h hp
    have hc := hcount h
    obtain ⟨_, hle, hu⟩ := h
    rw [lru_pages_cons, if_pos hp] at hc hle
    exact ⟨by omega, lru_sub_underflow hu (by simp only; omega)⟩
  refine ⟨fun h => h.1, ?_, ?_, ?_, ?_, ?_, ?_, ?_, ?_⟩
  · rintro b os rs rs' l ⟨hbooks, hle, hu⟩ hp
    exact ⟨hbooks.perm hp, lru_pages_perm hp ▸ hle, hu⟩
  · rintro os rs l ⟨hbooks, hle, hu⟩
    exact ⟨hbooks, by simp at hle ⊢; omega, hu⟩
  · rintro os rs l zalloc purged start stop new l' ⟨hbooks, hle, hu⟩ hsz hal
    refine ⟨hbooks.range_alloc hal, ?_, ?_⟩
    · obtain ⟨rfl, _⟩ := range_alloc_some hal
      rw [lru_pages_cons]
      simp only [Bool.false_eq_true, if_false, if_true] at hle ⊢
      split <;> omega
    obtain ⟨_, rfl⟩ := range_alloc_some hal
    split <;> simpa [lru_add] using hu
  · intro b os r rs l h
    refine ⟨h.1.range_del, ?_⟩
    by_cases hp : r.purged = false
    · rw [range_del, if_pos hp]
      exact hdel h hp
    have hle := h.2.1
    rw [lru_pages_cons, if_neg hp, Nat.zero_add] at hle
    rw [range_del, if_neg hp]
    exact ⟨hle, h.2.2⟩
  · intro b os r rs l start stop h hsz
    have hc := hcount h
    obtain ⟨hbooks, hle, hu⟩ := h
    refine ⟨hbooks.range_shrink start stop, ?_⟩
    rw [lru_pages_cons] at hc hle
    have hlt := range_size_lt r
    by_cases hp : r.purged = false
    · have hsh : (range_shrink l r start stop).2 = lru_sub l
          (sub32 (range_size r) (range_size { r with pgstart := start, pgend := stop })) :=
        if_pos hp
      rw [if_pos hp] at hc hle
      rw [hsh, sub32_eq hlt hsz, lru_pages_cons]
      simp only [range_shrink_fst, hp, if_true] at hsz ⊢
      exact ⟨by omega, lru_sub_underflow hu (by omega)⟩
    have hsh : (range_shrink l r start stop).2 = l := if_neg hp
    rw [if_neg hp] at hle
    rw [hsh, lru_pages_cons, if_neg (by simpa using hp)]
    exact ⟨hle, hu⟩
  · intro b os r rs l h hp
    refine ⟨h.1.purge hp, ?_⟩
    simpa [lru_pages_cons] using hdel h hp
  · rintro os rs l ⟨hbooks, hle, hu⟩
    exact ⟨Books.ledger.opened hbooks, by simp at hle ⊢; omega, hu⟩
  rintro b os os' rs l ⟨hbooks, hle, hu⟩ hsub
  exact ⟨Books.ledger.closed (b := b) hbooks hsub, hle, hu⟩

/-- Before each operation there is room for the pages it may add. -/
def RoomForPages (s : State) (_ : Label) : Prop :=
  lru_pages (all_ranges s.areas) + 2 ^ 20 < 2 ^ 32

instance (s : State) (l : Label) : Decidable (RoomForPages s l) :=
  inferInstanceAs (Decidable (_ < _))

/-- The count is exact as long as there is room. -/
theorem lru_count_exact (h : (ashmem.restrict RoomForPages).Reachable s) :
    s.lru.lru_count = lru_pages (all_ranges s.areas) ∧ s.lru.underflow = false := by
  let P : State → Prop := fun s =>
    s.lru.lru_count = lru_pages (all_ranges s.areas) ∧ s.lru.underflow = false
  refine System.invariant_under (P := P) (fun s hs => hs.of_restrict) ?_ ?_ h
  · rintro _ rfl
    exact ⟨rfl, rfl⟩
  rintro s l s' hs ⟨_, hu⟩ ⟨hroom, hstep⟩
  -- The bound of the ledger is what this operation starts with.
  have htally : Tally (lru_pages (all_ranges s.areas)) false (s.areas.map AshmemArea.addr)
      (all_ranges s.areas) s.lru := ⟨lru_ok_reachable hs, by simp, hu⟩
  obtain ⟨hbooks, hle, hu'⟩ :=
    (ashmem_step hstep).ledger (Tally.ledger hroom) (lists_ok_reachable hs) htally
  have hc := hbooks.count
  unfold RoomForPages at hroom
  simp only [if_true] at hle
  exact ⟨by omega, hu'⟩

/-- **The LRU list and its count**, in every reachable state: ranges are
told apart by their addresses, the LRU list has the address of each
unpurged range of each area exactly once, and `lru_count` is the sum of
their sizes as an `unsigned long`. It is the sum itself, and no
subtraction from it has wrapped, in every run whose operations start
with less than `2 ^ 32 - 2 ^ 20` pages on the list. -/
theorem lru_list_and_count :
    (∀ s, ashmem.Reachable s →
      ((all_ranges s.areas).map AshmemRange.addr).Nodup ∧
      s.lru.ashmem_lru_list.Nodup ∧
      s.lru.ashmem_lru_list.Perm ((evictable (all_ranges s.areas)).map AshmemRange.addr) ∧
      s.lru.lru_count = lru_pages (all_ranges s.areas) % 2 ^ 32) ∧
    (∀ s, (ashmem.restrict RoomForPages).Reachable s →
      s.lru.lru_count = lru_pages (all_ranges s.areas) ∧ s.lru.underflow = false) := by
  refine ⟨fun s hs => ?_, fun s hs => lru_count_exact hs⟩
  have hbooks := lru_ok_reachable hs
  have hnd : ((all_ranges s.areas).map AshmemRange.addr).Nodup :=
    (nodup_append.mp hbooks.nodup).2.1
  have hsub : ((evictable (all_ranges s.areas)).map AshmemRange.addr).Sublist
      ((all_ranges s.areas).map AshmemRange.addr) := filter_sublist.map _
  exact ⟨hnd, hbooks.list.nodup_iff.mpr (hnd.sublist hsub), hbooks.list, hbooks.count⟩

/-- Two pages unpinned, one of them pinned again. -/
theorem lru_list_and_count_one_page :
    ∃ s, (ashmem.restrict RoomForPages).Reachable s ∧
      s.lru.ashmem_lru_list.Perm ((evictable (all_ranges s.areas)).map AshmemRange.addr) ∧
      s.lru.lru_count = 1 ∧ s.lru.lru_count = lru_pages (all_ranges s.areas) := by
  let run : List Label :=
    [.ashmem_open true, .set_size 0 8192, .ashmem_mmap 0 3 (.ok ()),
      .ashmem_pin_unpin 0 .ASHMEM_UNPIN (some (0, 0)) true,
      .ashmem_pin_unpin 0 .ASHMEM_PIN (some (0, 4096)) true]
  let s : State := ⟨[⟨0, [⟨1, 1, 1, false⟩], true, 8192, PROT_MASK⟩], ⟨[1], 1, 2, false⟩⟩
  have hsteps : (ashmem.restrict RoomForPages).Steps initialState run s :=
    System.restrict_steps_of_replay (by decide +kernel)
  have hreach : (ashmem.restrict RoomForPages).Reachable s := ⟨_, _, rfl, hsteps⟩
  exact ⟨s, hreach, (lru_list_and_count.1 s hreach.of_restrict).2.2.1, rfl,
    (lru_list_and_count.2 s hreach).1⟩

/-! ### More pages than the count can hold -/

/-- An area of `2 ^ 20 - 1` pages, all unpinned; the `i`-th of them. -/
def big_area (i : Nat) : AshmemArea :=
  ⟨2 * i, [⟨2 * i + 1, 0, 2 ^ 20 - 2, false⟩], true, 0xFFFFF000, PROT_MASK⟩

/-- Create it and unpin it from the start onward. -/
def open_big_area (i : Nat) : List Label :=
  [.ashmem_open true, .set_size (2 * i) 0xFFFFF000, .ashmem_mmap (2 * i) 3 (.ok ()),
    .ashmem_pin_unpin (2 * i) .ASHMEM_UNPIN (some (0, 0)) true]

theorem pin_interval_big_area (h : a.size = 0xFFFFF000) :
    pin_interval a 0 0 = some (0, 2 ^ 20 - 2) := by
  unfold pin_interval pin_len
  rw [h]
  decide +kernel

theorem open_big_area_steps {i : Nat} (hnew : ∀ a ∈ areas, a.addr < 2 * i)
    (hl : l.next_addr = 2 * i) :
    ∃ l', ashmem.Steps ⟨areas, l⟩ (open_big_area i) ⟨areas ++ [big_area i], l'⟩ ∧
      l'.next_addr = 2 * (i + 1) := by
  -- the new area is the last one, and the only one at its address
  have harea : ∀ {a : AshmemArea} {l : Lru}, a.addr = 2 * i →
      (State.mk (areas ++ [a]) l).area (2 * i) = some a := by
    intro a l ha
    rw [← ha]
    exact at?_append_singleton fun b hb => by have := hnew b hb; omega
  have hset : ∀ {a a' : AshmemArea}, a.addr = 2 * i → a'.addr = 2 * i →
      set_area (areas ++ [a]) a' = areas ++ [a'] := by
    intro a a' ha ha'
    rw [set_area, ha', ← ha]
    exact modify_append_singleton (fun b hb => by have := hnew b hb; omega) _
  let a₀ : AshmemArea := ⟨2 * i, [], false, 0, PROT_MASK⟩
  let a₁ : AshmemArea := { a₀ with size := 0xFFFFF000 }
  let a₂ : AshmemArea := { a₁ with file := true }
  let l₀ : Lru := { l with next_addr := l.next_addr + 1 }
  have h₀ : ashmem.step ⟨areas, l⟩ (.ashmem_open true) ⟨areas ++ [a₀], l₀⟩ := by
    simp [ashmem, System.ofFun, run_op, a₀, l₀, hl]
  have h₁ : ashmem.step ⟨areas ++ [a₀], l₀⟩ (.set_size (2 * i) 0xFFFFF000)
      ⟨areas ++ [a₁], l₀⟩ := by
    simp only [ashmem, System.ofFun, run_op]
    rw [harea rfl]
    simp [Ashmem.set_size, a₀, a₁, hset]
  have h₂ : ashmem.step ⟨areas ++ [a₁], l₀⟩ (.ashmem_mmap (2 * i) 3 (.ok ()))
      ⟨areas ++ [a₂], l₀⟩ := by
    simp only [ashmem, System.ofFun, run_op]
    rw [harea rfl]
    simp [Ashmem.ashmem_mmap, a₀, a₁, a₂, hset, PROT_MASK]
  let r : AshmemRange := ⟨l₀.next_addr, 0, 2 ^ 20 - 2, false⟩
  let l₁ : Lru := lru_add { l₀ with next_addr := l₀.next_addr + 1 } r
  have h₃ : ashmem.step ⟨areas ++ [a₂], l₀⟩
      (.ashmem_pin_unpin (2 * i) .ASHMEM_UNPIN (some (0, 0)) true)
      ⟨areas ++ [big_area i], l₁⟩ := by
    have hr : big_area i = { a₂ with unpinned_list := [r] } := by
      simp [big_area, a₂, a₁, a₀, r, l₀, hl]
    have hset' : set_area (areas ++ [a₂]) { a₂ with unpinned_list := [r] } =
        areas ++ [{ a₂ with unpinned_list := [r] }] := hset rfl rfl
    have hop : Ashmem.ashmem_pin_unpin a₂ l₀ .ASHMEM_UNPIN (some (0, 0)) true =
        some ({ a₂ with unpinned_list := [r] }, l₁, .ok 0) := by
      rw [Ashmem.ashmem_pin_unpin, if_neg (by simp [a₂])]
      simp only [pin_interval_big_area (a := a₂) rfl]
      rfl
    simp only [ashmem, System.ofFun, run_op]
    rw [harea rfl, hr]
    simp [hop, hset']
  refine ⟨l₁, .cons h₀ (.cons h₁ (.cons h₂ (.single h₃))), ?_⟩
  simp only [l₁, l₀, lru_add]
  omega

/-- The `k` areas opened one after the other. -/
theorem open_big_areas_steps (k : Nat) :
    ∃ l, ashmem.Steps initialState ((List.range k).flatMap open_big_area)
      ⟨(List.range k).map big_area, l⟩ ∧ l.next_addr = 2 * k := by
  induction k with
  | zero => exact ⟨_, .nil _, rfl⟩
  | succ k ih => ?_
  obtain ⟨l, hsteps, hl⟩ := ih
  have hnew : ∀ a ∈ (List.range k).map big_area, a.addr < 2 * k := by
    intro a ha
    obtain ⟨i, hi, rfl⟩ := mem_map.mp ha
    have := mem_range.mp hi
    simp only [big_area]
    omega
  obtain ⟨l', hsteps', hl'⟩ := open_big_area_steps hnew hl
  refine ⟨l', ?_, hl'⟩
  simp only [range_succ, flatMap_append, map_append, flatMap_singleton, map_cons, map_nil]
  exact hsteps.append hsteps'

theorem lru_pages_big_areas (k : Nat) :
    lru_pages (all_ranges ((List.range k).map big_area)) = k * (2 ^ 20 - 1) := by
  induction k with
  | zero => rfl
  | succ k ih => ?_
  have hp : (all_ranges ((List.range (k + 1)).map big_area)).Perm
      (⟨2 * k + 1, 0, 2 ^ 20 - 2, false⟩ :: all_ranges ((List.range k).map big_area)) := by
    simp [range_succ, all_ranges, big_area]
  have hsz : range_size ⟨2 * k + 1, 0, 2 ^ 20 - 2, false⟩ = 2 ^ 20 - 1 := by
    simp [range_size, add32, sub32]
  rw [lru_pages_perm hp, lru_pages_cons, if_pos rfl, ih, hsz]
  omega

/-- With 4097 of them the count is wrong. -/
theorem lru_count_wraps :
    ∃ s, ashmem.Steps initialState ((List.range 4097).flatMap open_big_area) s ∧
      s.lru.lru_count ≠ lru_pages (all_ranges s.areas) := by
  obtain ⟨l, hsteps, _⟩ := open_big_areas_steps 4097
  refine ⟨_, hsteps, ?_⟩
  rw [(lru_ok_reachable ⟨_, _, rfl, hsteps⟩).count, lru_pages_big_areas]
  decide +kernel

end Nubernel.Ashmem
