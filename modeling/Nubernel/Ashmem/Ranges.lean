import Nubernel.Ashmem.Model

/-! # ashmem: the shape of the unpinned lists

What one call of `ashmem_pin` and `ashmem_unpin` does to the list of an
area, and the invariant of the lists over whole runs.

The argument checks of `ashmem_pin_unpin` let one degenerate interval
through: with `len = 0` and `offset = PAGE_ALIGN(size)` the interval
starts one page after its end. The `Interval`s allow for it, and so the ranges
of every run are such; in the runs in which no such unpin request occurs,
they are `Pages`.
-/

namespace Nubernel.Ashmem

open Arena LTS List Option

/-! ## Requests -/

/-- The number of pages of an area. -/
def npages (size : Nat) : Nat := PAGE_ALIGN size / PAGE_SIZE

/-- The last page of an area, as `ashmem_pin_unpin` computes `pgend` for a
request that reaches to the end. -/
def last_page (size : Nat) : Nat := sub32 (npages size) 1

/-- The intervals `ashmem_pin_unpin` works with. They may be empty, but
only just behind the last page; and when `PAGE_ALIGN(size)` has wrapped
to zero there is only one. -/
structure Interval (size pgstart pgend : Nat) : Prop where
  le_succ : pgstart ≤ pgend + 1
  le_last : pgend ≤ last_page size
  empty : pgstart = pgend + 1 → pgend = last_page size
  wrapped : npages size = 0 → pgstart = 0 ∧ pgend = 2 ^ 32 - 1

/-- The intervals it is meant to work with. -/
def Pages (size pgstart pgend : Nat) : Prop := pgstart ≤ pgend ∧ pgend < npages size

/-- The request that the argument checks should have refused: nothing is
left from `offset` onward. -/
def Degenerate (a : AshmemArea) (offset len : UInt32) : Prop :=
  len.toNat = 0 ∧ offset.toNat = PAGE_ALIGN a.size

instance (a : AshmemArea) (offset len : UInt32) : Decidable (Degenerate a offset len) :=
  inferInstanceAs (Decidable (_ ∧ _))

theorem or_and_page_mask {a b : Nat} :
    (a ||| b) &&& (PAGE_SIZE - 1) = 0 ↔ a % 4096 = 0 ∧ b % 4096 = 0 := by
  have h : PAGE_SIZE - 1 = 2 ^ 12 - 1 := rfl
  rw [h, Nat.and_two_pow_sub_one_eq_mod, Nat.or_mod_two_pow, Nat.or_eq_zero_iff]

theorem PAGE_ALIGN_pages (n : Nat) : ∃ m, m < 2 ^ 20 ∧ PAGE_ALIGN n = 4096 * m := by
  refine ⟨add32 n (PAGE_SIZE - 1) / PAGE_SIZE, ?_, ?_⟩
  · have := add32_lt n (PAGE_SIZE - 1)
    simp only [PAGE_SIZE] at *
    omega
  simp only [PAGE_ALIGN, PAGE_SIZE]
  omega

theorem last_page_lt (size : Nat) : last_page size < 2 ^ 32 := sub32_lt _ _

variable {pgend pgstart : Nat} {s s' : State} {l : Label} {areas : List AshmemArea} {a : AshmemArea}

theorem pin_interval_spec {offset len : UInt32}
    (h : pin_interval a offset len = some (pgstart, pgend)) :
    Interval a.size pgstart pgend ∧ (¬ Degenerate a offset len → Pages a.size pgstart pgend) := by
  obtain ⟨m, hm, hal⟩ := PAGE_ALIGN_pages a.size
  have hoff := offset.toNat_lt
  -- `len = 0` asks for the rest of the area, computed with wrap-around
  have hpl : (len.toNat = 0 ∧ pin_len a offset.toNat len.toNat = sub32 (4096 * m) offset.toNat) ∨
      (len.toNat ≠ 0 ∧ pin_len a offset.toNat len.toNat = len.toNat) := by
    unfold pin_len
    split <;> simp_all
  simp only [pin_interval] at h
  split at h
  · cases h
  rename_i hmask
  rw [not_not, or_and_page_mask] at hmask
  split at h
  · cases h
  split at h
  · cases h
  simp only [Option.some.injEq, Prod.mk.injEq] at h
  refine ⟨⟨?_, ?_, ?_, ?_⟩, ?_⟩
  all_goals
    simp only [Pages, Degenerate, last_page, npages, hal, add32, sub32, PAGE_SIZE] at *
    omega

/-! ## What a call of `ashmem_pin` does -/

variable {zalloc purged : Bool} {r new : AshmemRange}

theorem range_alloc_some {l l' : Lru} {start stop : Nat}
    (h : range_alloc zalloc l purged start stop = some (new, l')) :
    new = ⟨l.next_addr, start, stop, purged⟩ ∧
    l' = if purged = false then lru_add { l with next_addr := l.next_addr + 1 } new
      else { l with next_addr := l.next_addr + 1 } := by
  cases zalloc with
  | false => simp [range_alloc] at h
  | true =>
    obtain ⟨rfl, rfl⟩ := h
    exact ⟨rfl, rfl⟩

@[simp] theorem range_shrink_fst (l : Lru) (r : AshmemRange) (start stop : Nat) :
    (range_shrink l r start stop).1 = { r with pgstart := start, pgend := stop } := by
  rw [range_shrink]

/-- The runs of the loop of `ashmem_pin` for a non-empty interval, one
constructor for each way an entry of the list is handled. -/
inductive PinRun (zalloc : Bool) (pgstart pgend : Nat) :
    List AshmemRange → Lru → Bool → Walk Bool → Prop where
  | nil (l : Lru) (ret : Bool) : PinRun zalloc pgstart pgend [] l ret ⟨[], l, ret⟩
  | stop (r : AshmemRange) (rs : List AshmemRange) (l : Lru) (ret : Bool) :
      r.pgend < pgstart → PinRun zalloc pgstart pgend (r :: rs) l ret ⟨r :: rs, l, ret⟩
  | skip (r : AshmemRange) (rs : List AshmemRange) (l : Lru) (ret : Bool) (w : Walk Bool) :
      pgend < r.pgstart → PinRun zalloc pgstart pgend rs l ret w →
      PinRun zalloc pgstart pgend (r :: rs) l ret (w.cons r)
  | nuke (r : AshmemRange) (rs : List AshmemRange) (l : Lru) (ret : Bool) (w : Walk Bool) :
      pgstart ≤ r.pgstart → r.pgend ≤ pgend →
      PinRun zalloc pgstart pgend rs (range_del l r) (ret || r.purged) w →
      PinRun zalloc pgstart pgend (r :: rs) l ret w
  | front (r : AshmemRange) (rs : List AshmemRange) (l : Lru) (ret : Bool) (w : Walk Bool) :
      pgstart ≤ r.pgstart → r.pgstart ≤ pgend → pgend < r.pgend →
      PinRun zalloc pgstart pgend rs (range_shrink l r (add32 pgend 1) r.pgend).2
        (ret || r.purged) w →
      PinRun zalloc pgstart pgend (r :: rs) l ret
        (w.cons (range_shrink l r (add32 pgend 1) r.pgend).1)
  | rear (r : AshmemRange) (rs : List AshmemRange) (l : Lru) (ret : Bool) (w : Walk Bool) :
      r.pgstart < pgstart → pgstart ≤ r.pgend → r.pgend ≤ pgend →
      PinRun zalloc pgstart pgend rs (range_shrink l r r.pgstart (sub32 pgstart 1)).2
        (ret || r.purged) w →
      PinRun zalloc pgstart pgend (r :: rs) l ret
        (w.cons (range_shrink l r r.pgstart (sub32 pgstart 1)).1)
  | punch (r new : AshmemRange) (rs : List AshmemRange) (l l' : Lru) (ret : Bool) :
      r.pgstart < pgstart → pgend < r.pgend →
      range_alloc zalloc l r.purged (add32 pgend 1) r.pgend = some (new, l') →
      PinRun zalloc pgstart pgend (r :: rs) l ret
        ⟨new :: (range_shrink l' r r.pgstart (sub32 pgstart 1)).1 :: rs,
          (range_shrink l' r r.pgstart (sub32 pgstart 1)).2, ret || r.purged⟩
  | punch_nomem (r : AshmemRange) (rs : List AshmemRange) (l : Lru) (ret : Bool) :
      r.pgstart < pgstart → pgend < r.pgend → zalloc = false →
      PinRun zalloc pgstart pgend (r :: rs) l ret
        ⟨(range_shrink l r r.pgstart (sub32 pgstart 1)).1 :: rs,
          (range_shrink l r r.pgstart (sub32 pgstart 1)).2, ret || r.purged⟩

theorem ashmem_pin_loop_run (zalloc : Bool) (hse : pgstart ≤ pgend)
    (rs : List AshmemRange) (l : Lru) (ret : Bool) :
    PinRun zalloc pgstart pgend rs l ret (ashmem_pin_loop zalloc pgstart pgend rs l ret) := by
  induction rs generalizing l ret with
  | nil => exact .nil l ret
  | cons r rs ih => ?_
  rw [ashmem_pin_loop]
  -- The list is in descending order: nothing behind this range can overlap.
  by_cases hbefore : range_before_page r pgstart
  · rw [if_pos hbefore]
    exact .stop r rs l ret hbefore
  rw [if_neg hbefore]
  by_cases hin : page_range_in_range r pgstart pgend
  · rw [if_pos hin]
    -- The four cases of the comment in `ashmem_pin`, in the order of its tests.
    by_cases h1 : page_range_subsumes_range r pgstart pgend
    · rw [if_pos h1]
      exact .nuke r rs l ret _ h1.1 h1.2 (ih _ _)
    rw [if_neg h1]
    by_cases h2 : r.pgstart ≥ pgstart
    · rw [if_pos h2]
      exact .front r rs l ret _ h2 (by omega) (by omega) (ih _ _)
    rw [if_neg h2]
    by_cases h3 : r.pgend ≤ pgend
    · rw [if_pos h3]
      exact .rear r rs l ret _ (by omega) (by omega) h3 (ih _ _)
    rw [if_neg h3]
    cases hal : range_alloc zalloc l r.purged (add32 pgend 1) r.pgend with
    | some p =>
      obtain ⟨new, l'⟩ := p
      exact .punch r new rs l l' ret (by omega) (by omega) hal
    | none =>
      -- Without memory for the new range its pages are lost from the list.
      have hz : zalloc = false := by
        simpa [range_alloc] using hal
      exact .punch_nomem r rs l ret (by omega) (by omega) hz
  rw [if_neg hin]
  exact .skip r rs l ret _ (by omega) (ih _ _)

/-- An interval behind every range is skipped over at once. -/
theorem ashmem_pin_loop_behind (zalloc : Bool) {rs : List AshmemRange}
    (h : ∀ r ∈ rs, r.pgend < pgstart) (l : Lru) (ret : Bool) :
    ashmem_pin_loop zalloc pgstart pgend rs l ret = ⟨rs, l, ret⟩ := by
  cases rs with
  | nil => rfl
  | cons r rs =>
    rw [ashmem_pin_loop, if_pos (h r (by simp))]

/-! ## What a call of `ashmem_unpin` does -/

/-- What a scan finds: everything in front of the place it stops at lies
behind the interval. -/
theorem unpin_scan_spec (pgstart pgend : Nat) (rs : List AshmemRange) :
    match unpin_scan pgstart pgend rs with
    | .subsumed => ∃ r ∈ rs, pgstart ≤ r.pgend ∧ r.pgstart ≤ pgstart ∧ pgend ≤ r.pgend
    | .absorb before r after =>
        rs = before ++ r :: after ∧ (∀ b ∈ before, pgend < b.pgstart) ∧
        pgstart ≤ r.pgend ∧ ¬ page_range_subsumed_by_range r pgstart pgend ∧
        page_range_in_range r pgstart pgend
    | .insert before after =>
        rs = before ++ after ∧ (∀ b ∈ before, pgend < b.pgstart) ∧
        (∀ r, after.head? = some r → r.pgend < pgstart) := by
  induction rs with
  | nil => simp [unpin_scan]
  | cons r rs ih => ?_
  rw [unpin_scan]
  by_cases hbefore : range_before_page r pgstart
  · rw [if_pos hbefore]
    simpa using hbefore
  rw [if_neg hbefore]
  by_cases hsub : page_range_subsumed_by_range r pgstart pgend
  · rw [if_pos hsub]
    exact ⟨r, by simp, by omega, hsub⟩
  rw [if_neg hsub]
  by_cases hin : page_range_in_range r pgstart pgend
  · rw [if_pos hin]
    exact ⟨rfl, by simp, by omega, hsub, hin⟩
  rw [if_neg hin]
  -- The range lies behind the interval, and the scan goes on.
  have hr : pgend < r.pgstart := by omega
  cases hscan : unpin_scan pgstart pgend rs with
  | subsumed =>
    rw [hscan] at ih
    obtain ⟨r', hr', h⟩ := ih
    exact ⟨r', by simp [hr'], h⟩
  | absorb before r' after | insert before after =>
    rw [hscan] at ih
    obtain ⟨rfl, hb, h⟩ := ih
    refine ⟨rfl, ?_, h⟩
    simpa [hr] using hb

/-- The runs of `ashmem_unpin` from a restart on. -/
inductive UnpinRun (zalloc : Bool) :
    Nat → Nat → Bool → List AshmemRange → Lru → Walk (Except Errno Int) → Prop where
  | subsumed (pgstart pgend : Nat) (purged : Bool) (rs : List AshmemRange) (l : Lru)
      (r : AshmemRange) :
      r ∈ rs → pgstart ≤ r.pgend → r.pgstart ≤ pgstart → pgend ≤ r.pgend →
      UnpinRun zalloc pgstart pgend purged rs l ⟨rs, l, .ok 0⟩
  | insert (pgstart pgend : Nat) (purged : Bool) (before after : List AshmemRange) (l l' : Lru)
      (new : AshmemRange) :
      (∀ b ∈ before, pgend < b.pgstart) → (∀ r, after.head? = some r → r.pgend < pgstart) →
      range_alloc zalloc l purged pgstart pgend = some (new, l') →
      UnpinRun zalloc pgstart pgend purged (before ++ after) l
        ⟨before ++ new :: after, l', .ok 0⟩
  | nomem (pgstart pgend : Nat) (purged : Bool) (before after : List AshmemRange) (l : Lru) :
      (∀ b ∈ before, pgend < b.pgstart) → (∀ r, after.head? = some r → r.pgend < pgstart) →
      zalloc = false →
      UnpinRun zalloc pgstart pgend purged (before ++ after) l
        ⟨before ++ after, l, .error .ENOMEM⟩
  | absorb (pgstart pgend : Nat) (purged : Bool) (before after : List AshmemRange) (l : Lru)
      (r : AshmemRange) (w : Walk (Except Errno Int)) :
      pgstart ≤ r.pgend → ¬ page_range_subsumed_by_range r pgstart pgend →
      page_range_in_range r pgstart pgend →
      UnpinRun zalloc (min r.pgstart pgstart) (max r.pgend pgend) (purged || r.purged)
        (before ++ after) (range_del l r) w →
      UnpinRun zalloc pgstart pgend purged (before ++ r :: after) l w

/-- With as much fuel as the list is long the call returns, and the run it
makes is one of `UnpinRun`. -/
theorem ashmem_unpin_restart_run (zalloc : Bool) (fuel pgstart pgend : Nat)
    (purged : Bool) (rs : List AshmemRange) (l : Lru) (hfuel : rs.length ≤ fuel) :
    ∃ w, ashmem_unpin_restart zalloc fuel pgstart pgend purged rs l = some w ∧
      UnpinRun zalloc pgstart pgend purged rs l w := by
  induction fuel generalizing pgstart pgend purged rs l with
  | zero =>
    obtain rfl : rs = [] := length_eq_zero_iff.mp (by omega)
    rw [ashmem_unpin_restart, unpin_scan]
    cases hal : range_alloc zalloc l purged pgstart pgend with
    | some p => exact ⟨_, rfl, .insert pgstart pgend purged [] [] l p.2 p.1 (by simp) (by simp) hal⟩
    | none => exact ⟨_, rfl, .nomem _ _ _ [] [] _ (by simp) (by simp)
        (by simpa [range_alloc] using hal)⟩
  | succ fuel ih => ?_
  have hspec := unpin_scan_spec pgstart pgend rs
  rw [ashmem_unpin_restart]
  cases hscan : unpin_scan pgstart pgend rs with
  | subsumed =>
    rw [hscan] at hspec
    obtain ⟨r, hr, h1, h2, h3⟩ := hspec
    exact ⟨_, rfl, .subsumed pgstart pgend purged rs l r hr h1 h2 h3⟩
  | insert before after =>
    rw [hscan] at hspec
    obtain ⟨rfl, hb, ha⟩ := hspec
    cases hal : range_alloc zalloc l purged pgstart pgend with
    | some p => exact ⟨_, by simp only, .insert _ _ _ _ _ _ p.2 p.1 hb ha hal⟩
    | none => exact ⟨_, by simp only, .nomem _ _ _ _ _ _ hb ha (by simpa [range_alloc] using hal)⟩
  | absorb before r after =>
    rw [hscan] at hspec
    obtain ⟨rfl, _, hr, hsub, hin⟩ := hspec
    -- `goto restart` with one range less: the list is the measure.
    obtain ⟨w, hw, hrun⟩ := ih (min r.pgstart pgstart) (max r.pgend pgend)
      (purged || r.purged) (before ++ after) (range_del l r) (by simp at hfuel ⊢; omega)
    exact ⟨w, hw, .absorb _ _ _ _ _ _ _ _ hr hsub hin hrun⟩

/-! ## The shape of a list

The shape is stated relative to a predicate `I` on intervals, so that
the same lemmas serve the intervals the code lets through and the ones
it is meant to let through. -/

/-- What the list operations need of a predicate on the intervals of an
area. -/
structure IntervalClass (size : Nat) (I : Nat → Nat → Prop) : Prop where
  /-- At worst an interval is empty, and its end is in the area. -/
  bound : ∀ {s e}, I s e → s ≤ e + 1 ∧ e ≤ last_page size
  /-- What a request leaves over of an interval is an interval. -/
  cut : ∀ {s e s' e' x y}, I s e → Interval size s' e' → s ≤ x → x ≤ y → y ≤ e →
    e' < x ∨ y < s' → I x y
  /-- Two intervals can be merged. -/
  join : ∀ {s e s' e'}, I s e → I s' e' → I (min s s') (max e e')

/-- The shape of an unpinned list: intervals that are pairwise disjoint and
in descending order. -/
structure RangesOk (I : Nat → Nat → Prop) (rs : List AshmemRange) : Prop where
  sorted : rs.Pairwise fun r r' => r'.pgend < r.pgstart
  interval : ∀ r ∈ rs, I r.pgstart r.pgend

section shape
variable {size : Nat} {I : Nat → Nat → Prop}

theorem RangesOk.nil (I : Nat → Nat → Prop) : RangesOk I [] := ⟨.nil, by simp⟩

variable {rs : List AshmemRange} {pgstart pgend : Nat}

theorem RangesOk.cons_iff :
    RangesOk I (r :: rs) ↔
      I r.pgstart r.pgend ∧ (∀ r' ∈ rs, r'.pgend < r.pgstart) ∧ RangesOk I rs := by
  constructor
  · rintro ⟨hs, hi⟩
    rw [pairwise_cons] at hs
    exact ⟨hi r (by simp), hs.1, hs.2, fun r' hr' => hi r' (by simp [hr'])⟩
  rintro ⟨hr, hlt, hs, hi⟩
  exact ⟨pairwise_cons.mpr ⟨hlt, hs⟩, by simpa using ⟨hr, hi⟩⟩

theorem RangesOk.tail (hok : RangesOk I (r :: rs)) : RangesOk I rs :=
  (RangesOk.cons_iff.mp hok).2.2

theorem RangesOk.sublist {rs' : List AshmemRange} (hok : RangesOk I rs)
    (h : rs'.Sublist rs) : RangesOk I rs' :=
  ⟨hok.sorted.sublist h, fun r hr => hok.interval r (h.subset hr)⟩

/-- A range may be inserted between those behind it and those in front. -/
theorem RangesOk.insert {before after : List AshmemRange} (hok : RangesOk I (before ++ after))
    (hnew : I new.pgstart new.pgend) (hb : ∀ r ∈ before, new.pgend < r.pgstart)
    (ha : ∀ r ∈ after, r.pgend < new.pgstart) :
    RangesOk I (before ++ new :: after) := by
  obtain ⟨hs, hi⟩ := hok
  rw [pairwise_append] at hs
  refine ⟨?_, ?_⟩
  · rw [pairwise_append, pairwise_cons]
    refine ⟨hs.1, ⟨ha, hs.2.1⟩, ?_⟩
    simp only [forall_mem_cons]
    exact fun r hr => ⟨hb r hr, hs.2.2 r hr⟩
  intro r hr
  simp only [mem_append, mem_cons] at hr hi
  rcases hr with hr | rfl | hr
  · exact hi r (.inl hr)
  · exact hnew
  · exact hi r (.inr hr)

/-- Changing anything but the bounds of the ranges keeps the shape. -/
theorem RangesOk.map {f : AshmemRange → AshmemRange}
    (hok : RangesOk I rs) (hs : ∀ r, (f r).pgstart = r.pgstart)
    (he : ∀ r, (f r).pgend = r.pgend) : RangesOk I (rs.map f) := by
  refine ⟨?_, ?_⟩
  · simpa [pairwise_map, hs, he] using hok.sorted
  · simpa [hs, he] using hok.interval

variable (hI : IntervalClass size I)
include hI

theorem RangesOk.first (hok : RangesOk I (r :: rs)) :
    I r.pgstart r.pgend ∧ (∀ r' ∈ rs, r'.pgend < r.pgstart) ∧ RangesOk I rs ∧
      r.pgstart ≤ r.pgend + 1 ∧ r.pgend ≤ last_page size := by
  obtain ⟨hr, hlt, hrs⟩ := RangesOk.cons_iff.mp hok
  exact ⟨hr, hlt, hrs, hI.bound hr⟩

/-- Everything from the insertion point on lies in front of the interval. -/
theorem RangesOk.after_lt {after : List AshmemRange}
    (hok : RangesOk I after) (h : ∀ r, after.head? = some r → r.pgend < pgstart) :
    ∀ r ∈ after, r.pgend < pgstart := by
  cases after with
  | nil => simp
  | cons r rs =>
    obtain ⟨_, hlt, _, hb⟩ := hok.first hI
    -- The order carries over to the ranges behind, even if this one is empty.
    have hr' := h r rfl
    simp only [forall_mem_cons]
    refine ⟨hr', fun r' hr'' => ?_⟩
    have := hlt r' hr''
    omega

/-- The empty interval lies behind every range. -/
theorem RangesOk.behind (hok : RangesOk I rs)
    (hreq : Interval size pgstart pgend) (hse : pgend < pgstart) :
    ∀ r ∈ rs, r.pgend < pgstart := by
  intro r hr
  have := hI.bound (hok.interval r hr)
  have := hreq.le_succ
  have := hreq.empty
  omega

/-- Pinning keeps the shape of the list, and no range grows upward. -/
theorem PinRun.ranges_ok {l : Lru} {ret : Bool} {w : Walk Bool}
    (h : PinRun zalloc pgstart pgend rs l ret w) (hse : pgstart ≤ pgend) (hok : RangesOk I rs)
    (hcut : ∀ {s e x y}, I s e → s ≤ x → x ≤ y → y ≤ e → pgend < x ∨ y < pgstart → I x y) :
    RangesOk I w.ranges ∧
    ∀ b, (∀ r ∈ rs, r.pgend < b) → ∀ r ∈ w.ranges, r.pgend < b := by
  have hlast := last_page_lt size
  induction h with
  | nil l ret => exact ⟨hok, fun b hb => hb⟩
  | stop r rs l ret _ => exact ⟨hok, fun b hb => hb⟩
  | skip r rs l ret w _ _ ih =>
    obtain ⟨hr, hlt, hrs⟩ := RangesOk.cons_iff.mp hok
    obtain ⟨hw, hb⟩ := ih hrs
    simp only [Walk.cons, RangesOk.cons_iff, forall_mem_cons]
    exact ⟨⟨hr, hb _ hlt, hw⟩, fun b hb' => ⟨hb'.1, hb b hb'.2⟩⟩
  | nuke r rs l ret w _ _ _ ih =>
    obtain ⟨hw, hb⟩ := ih hok.tail
    exact ⟨hw, fun b hb' => hb b fun r' hr' => hb' r' (by simp [hr'])⟩
  | front r rs l ret w h1 h2 h3 _ ih =>
    obtain ⟨hr, hlt, hrs, hbound⟩ := hok.first hI
    obtain ⟨hw, hb⟩ := ih hrs
    simp only [Walk.cons, range_shrink_fst, add32_one h3 (by omega), RangesOk.cons_iff,
      forall_mem_cons]
    refine ⟨⟨?_, ?_, hw⟩, fun b hb' => ⟨hb'.1, hb b hb'.2⟩⟩
    · exact hcut hr (by omega) (by omega) le_rfl (by omega)
    intro r' hr'
    have := hb _ hlt r' hr'
    omega
  | rear r rs l ret w h1 h2 h3 _ ih =>
    obtain ⟨hr, hlt, hrs, hbound⟩ := hok.first hI
    obtain ⟨hw, hb⟩ := ih hrs
    simp only [Walk.cons, range_shrink_fst, sub32_one h1 (by omega), RangesOk.cons_iff,
      forall_mem_cons]
    refine ⟨⟨?_, hb _ hlt, hw⟩, fun b hb' => ⟨by omega, hb b hb'.2⟩⟩
    exact hcut hr le_rfl (by omega) (by omega) (by omega)
  | punch r new rs l l' ret h1 h2 hal =>
    obtain ⟨hr, hlt, hrs, hbound⟩ := hok.first hI
    obtain ⟨rfl, _⟩ := range_alloc_some hal
    simp only [range_shrink_fst, add32_one h2 (by omega), sub32_one h1 (by omega),
      RangesOk.cons_iff, forall_mem_cons]
    refine ⟨⟨?_, ⟨by omega, ?_⟩, ?_, hlt, hrs⟩, fun b hb' => ⟨hb'.1, by omega, hb'.2⟩⟩
    · exact hcut hr (by omega) (by omega) le_rfl (by omega)
    · intro r' hr'
      have := hlt r' hr'
      omega
    · exact hcut hr le_rfl (by omega) (by omega) (by omega)
  | punch_nomem r rs l ret h1 h2 _ =>
    obtain ⟨hr, hlt, hrs, hbound⟩ := hok.first hI
    simp only [range_shrink_fst, sub32_one h1 (by omega), RangesOk.cons_iff, forall_mem_cons]
    refine ⟨⟨?_, hlt, hrs⟩, fun b hb' => ⟨by omega, hb'.2⟩⟩
    exact hcut hr le_rfl (by omega) (by omega) (by omega)

/-- Pinning takes the interval out of the ranges that are marked as `Q` says,
if none of them has to be split without memory. -/
theorem PinRun.pages {l : Lru} {ret : Bool} {w : Walk Bool} (Q : Bool → Prop)
    (h : PinRun zalloc pgstart pgend rs l ret w) (hse : pgstart ≤ pgend) (hok : RangesOk I rs)
    (hsafe : zalloc = false → ∀ r ∈ rs, Q r.purged → ¬ (r.pgstart < pgstart ∧ pgend < r.pgend))
    (p : Nat) :
    (∃ r ∈ w.ranges, page_in_range r p ∧ Q r.purged) ↔
      (∃ r ∈ rs, page_in_range r p ∧ Q r.purged) ∧ ¬ (pgstart ≤ p ∧ p ≤ pgend) := by
  have hlast := last_page_lt size
  induction h with
  | nil l ret => simp
  | stop r rs l ret hstop =>
    obtain ⟨hr, hlt, _, hbound⟩ := hok.first hI
    -- everything from here on lies before the interval
    grind
  | skip r rs l ret w _ _ ih | nuke r rs l ret w _ _ _ ih =>
    simp only [forall_mem_cons] at hsafe
    simp only [Walk.cons, mem_cons, exists_eq_or_imp, ih hok.tail fun hz => (hsafe hz).2]
    grind
  | front r rs l ret w h1 h2 h3 _ ih =>
    obtain ⟨hr, _, hrs, hbound⟩ := hok.first hI
    simp only [forall_mem_cons] at hsafe
    simp only [Walk.cons, range_shrink_fst, add32_one h3 (by omega), mem_cons, exists_eq_or_imp,
      ih hrs fun hz => (hsafe hz).2]
    grind
  | rear r rs l ret w h1 h2 h3 _ ih =>
    obtain ⟨hr, hlt, hrs, hbound⟩ := hok.first hI
    simp only [forall_mem_cons] at hsafe
    simp only [Walk.cons, range_shrink_fst, sub32_one h1 (by omega), mem_cons, exists_eq_or_imp,
      ih hrs fun hz => (hsafe hz).2]
    grind
  | punch r new rs l l' ret h1 h2 hal =>
    obtain ⟨hr, hlt, _, hbound⟩ := hok.first hI
    obtain ⟨rfl, _⟩ := range_alloc_some hal
    simp only [range_shrink_fst, add32_one h2 (by omega), sub32_one h1 (by omega), mem_cons,
      exists_eq_or_imp]
    grind
  | punch_nomem r rs l ret h1 h2 hz =>
    obtain ⟨hr, hlt, _⟩ := RangesOk.cons_iff.mp hok
    have hnot : ¬ Q r.purged := fun hq => hsafe hz r (by simp) hq ⟨h1, h2⟩
    simp only [range_shrink_fst, mem_cons, exists_eq_or_imp, hnot, and_false, false_or]
    grind

theorem UnpinRun.ranges_ok {l : Lru} {w : Walk (Except Errno Int)}
    (h : UnpinRun zalloc pgstart pgend purged rs l w) (hse : I pgstart pgend) (hok : RangesOk I rs)
    :
    RangesOk I w.ranges := by
  induction h with
  | subsumed pgstart pgend purged rs l r hr h1 h2 h3 => exact hok
  | insert pgstart pgend purged before after l l' new hb ha hal =>
    obtain ⟨rfl, _⟩ := range_alloc_some hal
    have hafter : RangesOk I after := hok.sublist (sublist_append_right _ _)
    exact hok.insert hse hb (hafter.after_lt hI ha)
  | nomem => exact hok
  | absorb pgstart pgend purged before after l r w _ _ _ _ ih =>
    -- The union may overlap other ranges, which the restart takes in, too.
    exact ih (hI.join (hok.interval r (by simp)) hse) (hok.sublist (by simp))

end shape

theorem Interval.intervalClass (size : Nat) : IntervalClass size (Interval size) := by
  refine ⟨?_, ?_, ?_⟩
  · intro s e h
    exact ⟨h.le_succ, h.le_last⟩
  · intro s e s' e' x y h h' _ hxy hye hout
    have := h.le_last
    refine ⟨by omega, by omega, by omega, fun hn => ?_⟩
    have := h.wrapped hn
    have := h'.wrapped hn
    omega
  intro s e s' e' h h'
  obtain ⟨h1, h2, h3, h4⟩ := h
  obtain ⟨h1', h2', h3', h4'⟩ := h'
  exact ⟨by omega, by omega, by omega, by omega⟩

theorem npages_lt (size : Nat) : npages size < 2 ^ 20 := by
  obtain ⟨m, hm, hal⟩ := PAGE_ALIGN_pages size
  simp only [npages, hal, PAGE_SIZE]
  omega

theorem last_page_eq {size : Nat} (h : 0 < npages size) : last_page size = npages size - 1 := by
  have := npages_lt size
  exact sub32_eq (by omega) h

theorem Pages.interval {size s e : Nat} (h : Pages size s e) : Interval size s e := by
  obtain ⟨h1, h2⟩ := h
  have hl := @last_page_eq size (by omega)
  exact ⟨by omega, by omega, by omega, by omega⟩

theorem Pages.intervalClass (size : Nat) : IntervalClass size (Pages size) := by
  refine ⟨?_, ?_, ?_⟩
  · intro s e h
    exact ⟨h.interval.le_succ, h.interval.le_last⟩
  · rintro s e s' e' x y ⟨_, h2⟩ _ _ hxy hye _
    exact ⟨hxy, by omega⟩
  rintro s e s' e' ⟨h1, h2⟩ ⟨h1', h2'⟩
  exact ⟨by omega, by omega⟩

/-! ## What one operation does

Every operation is one of seven kinds of steps; the invariants of this
and the next modules are proved kind by kind. -/

inductive OpStep (s : State) : Label → State → Prop where
  /-- Queries and errors. -/
  | same (l : Label) : OpStep s l s
  | opened (zalloc : Bool) :
      OpStep s (.ashmem_open zalloc)
        ⟨s.areas ++ [⟨s.lru.next_addr, [], false, 0, PROT_MASK⟩],
          { s.lru with next_addr := s.lru.next_addr + 1 }⟩
  | released (asma : Nat) (a : AshmemArea) : s.area asma = some a →
      OpStep s (.ashmem_release asma)
        ⟨free AshmemArea.addr asma s.areas, ashmem_release a s.lru⟩
  /-- Operations on an area that leave its ranges alone. -/
  | quiet (l : Label) (asma : Nat) (a a' : AshmemArea) : s.area asma = some a →
      a'.addr = a.addr → a'.unpinned_list = a.unpinned_list →
      a'.size = a.size ∨ a.file = false → (a.file = true → a'.file = true) →
      OpStep s l { s with areas := set_area s.areas a' }
  | pinned (asma : Nat) (a : AshmemArea) (offset len : UInt32) (zalloc : Bool)
      (pgstart pgend : Nat) : s.area asma = some a → a.file = true →
      pin_interval a offset len = some (pgstart, pgend) →
      OpStep s (.ashmem_pin_unpin asma .ASHMEM_PIN (some (offset, len)) zalloc)
        ⟨set_area s.areas { a with
            unpinned_list := (ashmem_pin zalloc a.unpinned_list s.lru pgstart pgend).ranges },
          (ashmem_pin zalloc a.unpinned_list s.lru pgstart pgend).lru⟩
  | unpinned (asma : Nat) (a : AshmemArea) (offset len : UInt32) (zalloc : Bool)
      (pgstart pgend : Nat) (w : Walk (Except Errno Int)) : s.area asma = some a →
      a.file = true → pin_interval a offset len = some (pgstart, pgend) →
      UnpinRun zalloc pgstart pgend false a.unpinned_list s.lru w →
      OpStep s (.ashmem_pin_unpin asma .ASHMEM_UNPIN (some (offset, len)) zalloc)
        ⟨set_area s.areas { a with unpinned_list := w.ranges }, w.lru⟩
  | shrunk (l : Label) (nr_to_scan : Int) (areas : List AshmemArea) (lru : Lru) :
      ashmem_shrink_loop s.lru.ashmem_lru_list nr_to_scan s.areas s.lru = some (areas, lru) →
      OpStep s l ⟨areas, lru⟩

variable {nr_to_scan : Int} {a' : AshmemArea} {ret : Except Errno Int} {I : Nat → Nat → Nat → Prop}

theorem ashmem_shrink_step {ret : Int} {gfp_fs : Bool} (l : Label)
    (h : ashmem_shrink s nr_to_scan gfp_fs = some (s', ret)) : OpStep s l s' := by
  rw [ashmem_shrink] at h
  split at h
  · simp only [Option.some.injEq, Prod.mk.injEq] at h
    exact h.1 ▸ .same l
  split at h
  · simp only [Option.some.injEq, Prod.mk.injEq] at h
    exact h.1 ▸ .same l
  obtain ⟨⟨areas, lru⟩, hloop, heq⟩ := map_eq_some_iff.mp h
  simp only [Prod.mk.injEq] at heq
  rw [← heq.1]
  exact .shrunk l nr_to_scan areas lru hloop

theorem ashmem_pin_unpin_step {asma : Nat} {lru : Lru} {cmd : PinCmd}
    {pin : Option (UInt32 × UInt32)} (ha : s.area asma = some a)
    (h : ashmem_pin_unpin a s.lru cmd pin zalloc = some (a', lru, ret)) :
    OpStep s (.ashmem_pin_unpin asma cmd pin zalloc) ⟨set_area s.areas a', lru⟩ := by
  -- What is refused writes the area back as it was.
  have hquiet : OpStep s (.ashmem_pin_unpin asma cmd pin zalloc)
      { s with areas := set_area s.areas a } :=
    .quiet _ asma a a ha rfl rfl (.inl rfl) id
  unfold ashmem_pin_unpin at h
  split at h
  · obtain ⟨rfl, rfl, _⟩ := h
    exact hquiet
  rename_i hfile
  split at h
  · obtain ⟨rfl, rfl, _⟩ := h
    exact hquiet
  rename_i offset len
  split at h
  · obtain ⟨rfl, rfl, _⟩ := h
    exact hquiet
  rename_i pgstart pgend hint
  have hfile' : a.file = true := by simpa using hfile
  cases cmd with
  | ASHMEM_PIN =>
    obtain ⟨rfl, rfl, _⟩ := h
    exact .pinned asma a offset len zalloc pgstart pgend ha hfile' hint
  | ASHMEM_UNPIN =>
    obtain ⟨w, hw, hrun⟩ := ashmem_unpin_restart_run zalloc a.unpinned_list.length pgstart pgend
      false a.unpinned_list s.lru le_rfl
    simp only [ashmem_unpin, hw, map_some, Option.some.injEq, Prod.mk.injEq] at h
    obtain ⟨rfl, rfl, _⟩ := h
    exact .unpinned asma a offset len zalloc pgstart pgend w ha hfile' hint hrun
  | ASHMEM_GET_PIN_STATUS =>
    obtain ⟨rfl, rfl, _⟩ := h
    exact hquiet

theorem run_op_step (h : run_op s l = some (s', ret)) : OpStep s l s' := by
  cases l with
  | ashmem_open zalloc =>
    cases zalloc with
    | false =>
      simp only [run_op, Bool.false_eq_true, if_false, Option.some.injEq, Prod.mk.injEq] at h
      exact h.1 ▸ .same _
    | true =>
      simp only [run_op, if_true, Option.some.injEq, Prod.mk.injEq] at h
      exact h.1 ▸ .opened true
  | ashmem_release asma =>
    obtain ⟨a, ha, heq⟩ := map_eq_some_iff.mp h
    simp only [Prod.mk.injEq] at heq
    exact heq.1 ▸ .released asma a ha
  | set_size asma size =>
    obtain ⟨a, ha, heq⟩ := map_eq_some_iff.mp h
    simp only [Prod.mk.injEq] at heq
    rw [← heq.1]
    refine .quiet _ asma a _ ha ?_ ?_ ?_ ?_ <;> cases hf : a.file <;> simp [set_size, hf]
  | set_prot_mask asma prot personality =>
    obtain ⟨a, ha, heq⟩ := map_eq_some_iff.mp h
    simp only [Prod.mk.injEq] at heq
    rw [← heq.1]
    refine .quiet _ asma a _ ha ?_ ?_ ?_ ?_ <;> unfold set_prot_mask <;> split <;> simp
  | ashmem_mmap asma vm_flags shmem =>
    obtain ⟨a, ha, heq⟩ := map_eq_some_iff.mp h
    simp only [Prod.mk.injEq] at heq
    rw [← heq.1]
    refine .quiet _ asma a _ ha ?_ ?_ ?_ ?_ <;> unfold ashmem_mmap <;> repeat' split
    all_goals simp_all
  | ashmem_pin_unpin asma cmd pin zalloc =>
    obtain ⟨a, ha, h⟩ := bind_eq_some_iff.mp h
    obtain ⟨⟨a', lru, ret'⟩, hop, heq⟩ := map_eq_some_iff.mp h
    simp only [Prod.mk.injEq] at heq
    exact heq.1 ▸ ashmem_pin_unpin_step ha hop
  | ashmem_shrink nr_to_scan gfp_fs =>
    obtain ⟨⟨s'', ret'⟩, hop, heq⟩ := map_eq_some_iff.mp h
    simp only [Prod.mk.injEq] at heq
    exact heq.1 ▸ ashmem_shrink_step _ hop
  | purge_all_caches capable =>
    cases capable with
    | false =>
      simp only [run_op, Bool.false_eq_true, if_false, Option.some.injEq, Prod.mk.injEq] at h
      exact h.1 ▸ .same _
    | true =>
      -- the first call only asks for `lru_count`
      simp only [run_op, if_true, bind_eq_some_iff, map_eq_some_iff] at h
      obtain ⟨⟨s₁, ret₁⟩, hop₁, ⟨s₂, ret₂⟩, hop₂, heq⟩ := h
      obtain ⟨rfl, _⟩ := hop₁
      simp only [Prod.mk.injEq] at heq
      exact heq.1 ▸ ashmem_shrink_step _ hop₂

theorem ashmem_step (h : ashmem.step s l s') : OpStep s l s' := by
  obtain ⟨⟨s'', ret⟩, hop, rfl⟩ := map_eq_some_iff.mp h
  exact run_op_step hop

/-! ## The lists of all areas over a run -/

/-- Every list has the shape, and areas without file have no ranges. -/
def ListsOk (I : Nat → Nat → Nat → Prop) (areas : List AshmemArea) : Prop :=
  ∀ a ∈ areas, RangesOk (I a.size) a.unpinned_list ∧ (a.file = false → a.unpinned_list = [])

theorem set_area_forall {P : AshmemArea → Prop} (h : ∀ a ∈ areas, P a)
    (ha' : P a') : ∀ a ∈ set_area areas a', P a :=
  modify_forall h fun _ _ _ => ha'

/-- What purging single ranges keeps, the shrinker keeps. -/
theorem ashmem_shrink_loop_areas {P : List AshmemArea → Prop}
    (hmark : ∀ areas addr, P areas → P (mark_purged areas addr)) {lru : List Nat}
    {areas' : List AshmemArea} {l l' : Lru}
    (h : ashmem_shrink_loop lru nr_to_scan areas l = some (areas', l')) (hP : P areas) :
    P areas' := by
  induction lru generalizing nr_to_scan areas l with
  | nil =>
    simp only [ashmem_shrink_loop, Option.some.injEq, Prod.mk.injEq] at h
    exact h.1 ▸ hP
  | cons addr rest ih => ?_
  rw [ashmem_shrink_loop] at h
  split at h
  · cases h
  split at h
  · cases h
  simp only at h
  split at h
  · simp only [Option.some.injEq, Prod.mk.injEq] at h
    exact h.1 ▸ hmark areas addr hP
  exact ih h (hmark areas addr hP)

theorem ListsOk.mark_purged (addr : Nat)
    (h : ListsOk I areas) : ListsOk I (mark_purged areas addr) := by
  intro a ha
  obtain ⟨b, hb, rfl⟩ := mem_map.mp ha
  obtain ⟨hok, hfile⟩ := h b hb
  refine ⟨hok.map ?_ ?_, fun hf => by simp [hfile hf, Arena.modify]⟩
  · intro r
    split <;> rfl
  intro r
  split <;> rfl

/-- Requests to unpin carry an interval of `I`. -/
def UnpinsIn (I : Nat → Nat → Nat → Prop) (s : State) (l : Label) : Prop :=
  ∀ asma a offset len zalloc pgstart pgend,
    l = .ashmem_pin_unpin asma .ASHMEM_UNPIN (some (offset, len)) zalloc →
    s.area asma = some a → pin_interval a offset len = some (pgstart, pgend) →
    I a.size pgstart pgend

/-- **Step lemma**: operations keep the shape of all lists, as long as the
intervals they unpin are of the shape. -/
theorem ListsOk.step (hI : ∀ size, IntervalClass size (I size)) (h : ListsOk I s.areas)
    (hreq : UnpinsIn I s l) (hstep : OpStep s l s') : ListsOk I s'.areas := by
  cases hstep with
  | same l => exact h
  | opened zalloc =>
    intro a ha
    rcases mem_append.mp ha with ha | ha
    · exact h a ha
    obtain rfl := mem_singleton.mp ha
    exact ⟨.nil _, fun _ => rfl⟩
  | released asma a _ => exact fun a' ha' => h a' (mem_of_mem_filter ha')
  | quiet l asma a a' ha _ hlist hsize hfile =>
    obtain ⟨hok, hnil⟩ := h a (mem_of_at? ha).1
    refine set_area_forall h ⟨?_, ?_⟩
    · rw [hlist]
      -- The size can be set only as long as there is no file, and so no range.
      rcases hsize with hsize | hf
      · exact hsize ▸ hok
      · exact hnil hf ▸ .nil _
    intro hf
    rw [hlist]
    apply hnil
    cases hf' : a.file with
    | false => rfl
    | true => exact absurd hf (by simp [hfile hf'])
  | pinned asma a offset len zalloc pgstart pgend ha hfile hint =>
    obtain ⟨hok, _⟩ := h a (mem_of_at? ha).1
    refine set_area_forall h ⟨?_, fun hf => by simp [hfile] at hf⟩
    have hreq' := (pin_interval_spec hint).1
    by_cases hse : pgstart ≤ pgend
    · exact ((ashmem_pin_loop_run zalloc hse _ _ _).ranges_ok (hI _) hse hok
        fun hr => (hI _).cut hr hreq').1
    -- The empty interval behind the last page.
    have hbehind := hok.behind (hI _) hreq' (by omega)
    rw [ashmem_pin, ashmem_pin_loop_behind zalloc hbehind]
    exact hok
  | unpinned asma a offset len zalloc pgstart pgend w ha hfile hint hrun =>
    obtain ⟨hok, _⟩ := h a (mem_of_at? ha).1
    have hse := hreq asma a offset len zalloc pgstart pgend rfl ha hint
    exact set_area_forall h ⟨hrun.ranges_ok (hI _) hse hok, fun hf => by simp [hfile] at hf⟩
  | shrunk l nr_to_scan areas lru hloop =>
    exact ashmem_shrink_loop_areas (fun _ addr h => h.mark_purged addr) hloop h

/-- The shape that holds in every run, degenerate requests included. -/
theorem lists_ok_reachable (h : ashmem.Reachable s) : ListsOk Interval s.areas := by
  refine System.invariant (P := fun s => ListsOk Interval s.areas) ?_ ?_ h
  · rintro _ rfl a ha
    simp [initialState] at ha
  intro s l s' hs hstep
  refine hs.step Interval.intervalClass ?_ (ashmem_step hstep)
  intro asma a offset len zalloc pgstart pgend _ _ hint
  exact (pin_interval_spec hint).1

/-! ## Runs without degenerate unpin requests -/

/-- The condition on a step: it does not unpin "everything onward" from
the end of the area. -/
def NoEmptyUnpin (s : State) : Label → Prop
  | .ashmem_pin_unpin asma .ASHMEM_UNPIN (some (offset, len)) _ =>
      ∀ a, s.area asma = some a → ¬ Degenerate a offset len
  | _ => True

instance (s : State) (l : Label) : Decidable (NoEmptyUnpin s l) :=
  match l with
  | .ashmem_pin_unpin asma .ASHMEM_UNPIN (some (offset, len)) _ =>
    match h : s.area asma with
    | none => isTrue fun a ha => by simp [h] at ha
    | some a => decidable_of_iff (¬ Degenerate a offset len)
        ⟨fun hd b hb => by rw [h, Option.some.injEq] at hb; exact hb ▸ hd, fun hd => hd a h⟩
  | .ashmem_pin_unpin _ .ASHMEM_UNPIN none _ => isTrue trivial
  | .ashmem_pin_unpin _ .ASHMEM_PIN _ _ => isTrue trivial
  | .ashmem_pin_unpin _ .ASHMEM_GET_PIN_STATUS _ _ => isTrue trivial
  | .ashmem_open _ => isTrue trivial
  | .ashmem_release _ => isTrue trivial
  | .set_size _ _ => isTrue trivial
  | .set_prot_mask _ _ _ => isTrue trivial
  | .ashmem_mmap _ _ _ => isTrue trivial
  | .ashmem_shrink _ _ => isTrue trivial
  | .purge_all_caches _ => isTrue trivial

/-- Every range lies inside the area, and the list is in strictly
descending order of disjoint intervals. -/
def UnpinnedListOk (a : AshmemArea) : Prop :=
  (∀ r ∈ a.unpinned_list, r.pgstart ≤ r.pgend ∧ r.pgend < PAGE_ALIGN a.size / PAGE_SIZE) ∧
  a.unpinned_list.Pairwise fun r r' => r'.pgend < r.pgstart

end Nubernel.Ashmem
