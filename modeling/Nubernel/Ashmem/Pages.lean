import Nubernel.Ashmem.Ranges

/-! # ashmem: the set of unpinned pages

What `ashmem_pin`, `ashmem_unpin` and `ashmem_get_pin_status` do to the
pages of an area, for any list in descending order. Unlike the module
on runs of the device, nothing is assumed of where the list and the
interval come from.
-/

namespace Nubernel.Ashmem

/-! ## Pages and lists -/

/-- The page is in one of the ranges. -/
def Unpinned (rs : List AshmemRange) (p : Nat) : Prop := ∃ r ∈ rs, page_in_range r p

/-- A non-empty interval of page numbers. -/
def Words (s e : Nat) : Prop := s ≤ e ∧ e < 2 ^ 32

@[simp] theorem unpinned_nil (p : Nat) : ¬ Unpinned [] p := by
  simp [Unpinned]

@[simp] theorem unpinned_cons {r : AshmemRange} {rs : List AshmemRange} {p : Nat} :
    Unpinned (r :: rs) p ↔ page_in_range r p ∨ Unpinned rs p := by
  simp [Unpinned]

@[simp] theorem unpinned_append {rs rs' : List AshmemRange} {p : Nat} :
    Unpinned (rs ++ rs') p ↔ Unpinned rs p ∨ Unpinned rs' p := by
  simp [Unpinned, or_and_right, exists_or]

variable {rs : List AshmemRange}

theorem Words.intervalClass : IntervalClass 0 Words := by
  refine ⟨?_, ?_, ?_⟩
  · rintro s e ⟨hle, hlt⟩
    have hlast : last_page 0 = 2 ^ 32 - 1 := by decide
    omega
  · rintro s e s' e' x y ⟨_, hlt⟩ _ _ hxy hye _
    exact ⟨hxy, by omega⟩
  rintro s e s' e' ⟨_, _⟩ ⟨_, _⟩
  exact ⟨by omega, by omega⟩

/-- The first range of a list, with the pages of the others below it. -/
theorem RangesOk.uncons {r : AshmemRange} (h : RangesOk Words (r :: rs)) :
    Words r.pgstart r.pgend ∧ (∀ p, Unpinned rs p → p < r.pgstart) ∧ RangesOk Words rs := by
  obtain ⟨hr, hlt, hrs⟩ := RangesOk.cons_iff.mp h
  refine ⟨hr, ?_, hrs⟩
  rintro p ⟨r', hr', hp⟩
  have := hlt r' hr'
  omega

/-! ## The operations -/

section operations
variable {pgstart pgend : Nat} {rs : List AshmemRange} {l : Lru}

/-- Pinning takes the interval out of the set. -/
theorem PinRun.unpinned {ret : Bool} {w : Walk Bool} (h : PinRun true pgstart pgend rs l ret w)
    (hse : Words pgstart pgend) (hok : RangesOk Words rs) (p : Nat) :
    Unpinned w.ranges p ↔ Unpinned rs p ∧ ¬ (pgstart ≤ p ∧ p ≤ pgend) := by
  have hpages := h.pages Words.intervalClass (fun _ => True) hse.1 hok nofun p
  simpa only [Unpinned, and_true] using hpages

theorem UnpinRun.ret_ok {purged : Bool} {w : Walk (Except Errno Int)}
    (h : UnpinRun true pgstart pgend purged rs l w) : w.ret = .ok 0 := by
  induction h with
  | subsumed | insert => rfl
  | nomem _ _ _ _ _ _ _ _ hz => cases hz
  | absorb _ _ _ _ _ _ _ _ _ _ _ _ ih => exact ih

theorem UnpinRun.unpinned {purged : Bool} {w : Walk (Except Errno Int)}
    (h : UnpinRun true pgstart pgend purged rs l w) (hse : Words pgstart pgend)
    (hok : RangesOk Words rs) (p : Nat) :
    Unpinned w.ranges p ↔ Unpinned rs p ∨ (pgstart ≤ p ∧ p ≤ pgend) := by
  induction h with
  | subsumed pgstart pgend purged rs l r hr h1 h2 h3 =>
    refine ⟨.inl, ?_⟩
    rintro (hp | hp)
    · exact hp
    · exact ⟨r, hr, by omega, by omega⟩
  | insert pgstart pgend purged before after l l' new hb ha hal =>
    obtain ⟨rfl, _⟩ := range_alloc_some hal
    rw [unpinned_append, unpinned_cons, unpinned_append]
    tauto
  | nomem pgstart pgend purged before after l _ _ hz => cases hz
  | absorb pgstart pgend purged before after l r w h1 _ hin _ ih => ?_
  have hr := hok.interval r (by simp)
  unfold Words at hr hse
  -- The range and the interval meet, so their hull is their union.
  rw [ih ⟨by omega, by omega⟩ (hok.sublist (by simp)), unpinned_append, unpinned_append, unpinned_cons]
  have hhull : (min r.pgstart pgstart ≤ p ∧ p ≤ max r.pgend pgend) ↔
      page_in_range r p ∨ (pgstart ≤ p ∧ p ≤ pgend) := by omega
  rw [hhull, or_assoc, or_assoc, or_left_comm (a := Unpinned after p), or_assoc]

/-- The status is `ASHMEM_IS_UNPINNED` just when a page of the interval is unpinned. -/
theorem pin_status_iff (hse : Words pgstart pgend) (hok : RangesOk Words rs) :
    ashmem_get_pin_status pgstart pgend rs = 0 ↔
      ∃ p, Unpinned rs p ∧ pgstart ≤ p ∧ p ≤ pgend := by
  unfold Words at hse
  induction rs with
  | nil => simp [ashmem_get_pin_status]
  | cons r rs ih => ?_
  obtain ⟨hr, hlt, hrs⟩ := hok.uncons
  unfold Words at hr
  rw [ashmem_get_pin_status]
  by_cases hbefore : range_before_page r pgstart
  · rw [if_pos hbefore]
    -- All pages of the list are below the interval.
    refine ⟨fun h => absurd h (by decide), fun ⟨p, hp, h1, h2⟩ => ?_⟩
    rw [unpinned_cons] at hp
    grind
  rw [if_neg hbefore]
  by_cases hin : page_range_in_range r pgstart pgend
  · rw [if_pos hin]
    refine ⟨fun _ => ⟨max r.pgstart pgstart, ?_, by omega, by omega⟩, fun _ => rfl⟩
    exact unpinned_cons.mpr (.inl (by omega))
  rw [if_neg hin, ih hrs]
  refine exists_congr fun p => ?_
  rw [unpinned_cons]
  grind

end operations

/-! ## No memory for an unpinned range -/

section nomem
variable {size pgstart pgend p : Nat} {zalloc purged : Bool} {rs : List AshmemRange} {l : Lru}
  {r : AshmemRange} {w : Walk (Except Errno Int)}

/-- The range has a page of the interval. -/
def Meets (r : AshmemRange) (pgstart pgend : Nat) : Prop :=
  ∃ p, page_in_range r p ∧ pgstart ≤ p ∧ p ≤ pgend

/-- The same pages with the same flags, and the same count. -/
def Unchanged (rs : List AshmemRange) (l : Lru) (w : Walk (Except Errno Int)) : Prop :=
  (∀ p purged, (∃ r ∈ w.ranges, page_in_range r p ∧ r.purged = purged) ↔
    ∃ r ∈ rs, page_in_range r p ∧ r.purged = purged) ∧
  w.lru.lru_count = l.lru_count

theorem not_unpinned_of_sorted {before after : List AshmemRange}
    (hok : RangesOk (Interval size) (before ++ r :: after)) (hp : page_in_range r p) :
    ¬Unpinned (before ++ after) p := by
  rintro ⟨r', hr', hp'⟩
  obtain ⟨_, hafter, hbefore⟩ := List.pairwise_append.mp hok.sorted
  rcases List.mem_append.mp hr' with hr' | hr'
  · have := hbefore r' hr' r (by simp)
    omega
  have := (List.pairwise_cons.mp hafter).1 r' hr'
  omega

/-- An empty range that is absorbed is the one behind the last page, and the request
stays as it is. -/
theorem absorb_empty (hse : Interval size pgstart pgend) (hr : Interval size r.pgstart r.pgend)
    (hbefore : pgstart ≤ r.pgend) (hin : page_range_in_range r pgstart pgend)
    (hempty : ¬r.pgstart ≤ r.pgend) :
    min r.pgstart pgstart = pgstart ∧ max r.pgend pgend = pgend := by
  have := hr.empty
  have := hr.le_succ
  have := hse.le_last
  omega

/-- A range with a page that is absorbed meets the request. -/
theorem absorb_meets (hse : Interval size pgstart pgend) (hr : Interval size r.pgstart r.pgend)
    (hbefore : pgstart ≤ r.pgend) (hin : page_range_in_range r pgstart pgend)
    (hne : r.pgstart ≤ r.pgend) : Meets r pgstart pgend := by
  have := hse.empty
  have := hse.le_succ
  have := hr.le_last
  exact ⟨max r.pgstart pgstart, by omega, by omega, by omega⟩

/-- What no range has once the request has it is in none when the call returns. -/
theorem UnpinRun.loses (h : UnpinRun false pgstart pgend purged rs l w) (hs : pgstart ≤ p)
    (he : p ≤ pgend) (hnot : ¬Unpinned rs p) :
    w.ret = .error .ENOMEM ∧ ¬Unpinned w.ranges p := by
  induction h with
  | subsumed _ _ _ _ _ r hr h1 h2 h3 => exact absurd ⟨r, hr, by omega, by omega⟩ hnot
  | insert _ _ _ _ _ _ _ _ _ _ hal => cases hal
  | nomem => exact ⟨rfl, hnot⟩
  | absorb pgstart pgend purged before after l r w _ _ _ _ ih =>
    refine ih (by omega) (by omega) fun hun => hnot ?_
    rw [unpinned_append] at hun ⊢
    rw [unpinned_cons]
    tauto

/-- A range that meets the request and does not hold it is lost. -/
theorem UnpinRun.loses_range (h : UnpinRun false pgstart pgend purged rs l w)
    (hse : Interval size pgstart pgend) (hok : RangesOk (Interval size) rs) (hr : r ∈ rs)
    (hmeets : Meets r pgstart pgend) (hsub : ¬page_range_subsumed_by_range r pgstart pgend) :
    w.ret = .error .ENOMEM ∧ ∃ q, Unpinned rs q ∧ ¬Unpinned w.ranges q := by
  obtain ⟨p, hp, hs, he⟩ := hmeets
  induction h with
  | subsumed pgstart pgend purged rs l r' hr' h1 h2 h3 =>
    -- Two ranges of one page are the same.
    obtain ⟨before, after, rfl⟩ := List.append_of_mem hr'
    have hnot := not_unpinned_of_sorted (p := p) hok (by omega)
    rcases List.mem_append.mp hr with hr | hr
    · exact absurd ⟨r, List.mem_append_left _ hr, hp⟩ hnot
    rcases List.mem_cons.mp hr with rfl | hr
    · exact absurd ⟨h2, h3⟩ hsub
    exact absurd ⟨r, List.mem_append_right _ hr, hp⟩ hnot
  | insert _ _ _ _ _ _ _ _ _ _ hal => cases hal
  | nomem pgstart pgend purged before after l hb ha _ =>
    rcases List.mem_append.mp hr with hr | hr
    · have := hb r hr
      omega
    have hafter : RangesOk (Interval size) after := hok.sublist (List.sublist_append_right _ _)
    have := hafter.after_lt (Interval.intervalClass size) ha r hr
    omega
  | absorb pgstart pgend purged before after l r' w hbefore hsub' hin hrun ih => ?_
  have hr' := hok.interval r' (by simp)
  by_cases hne : r'.pgstart ≤ r'.pgend
  · have hnot := not_unpinned_of_sorted (p := r'.pgstart) hok ⟨Nat.le_refl _, hne⟩
    obtain ⟨hret, hlost⟩ := hrun.loses (p := r'.pgstart) (by omega) (by omega) hnot
    exact ⟨hret, r'.pgstart, ⟨r', by simp, Nat.le_refl _, hne⟩, hlost⟩
  obtain ⟨hmin, hmax⟩ := absorb_empty hse hr' hbefore hin hne
  rw [hmin, hmax] at ih
  have hmem : r ∈ before ++ after := by
    rw [List.mem_append, List.mem_cons] at hr
    rw [List.mem_append]
    rcases hr with hr | rfl | hr
    · exact .inl hr
    · omega
    exact .inr hr
  obtain ⟨hret, q, hq, hlost⟩ := ih hse (hok.sublist (by simp)) hmem hsub hs he
  refine ⟨hret, q, ?_, hlost⟩
  rw [unpinned_append] at hq ⊢
  rw [unpinned_cons]
  tauto

/-- The size of an empty range is 0. -/
theorem range_del_empty (hr : Interval size r.pgstart r.pgend) (hempty : ¬r.pgstart ≤ r.pgend)
    (hl : l.lru_count < 2 ^ 32) : (range_del l r).lru_count = l.lru_count := by
  have hsize : range_size r = 0 := by
    have := hr.le_succ
    have := hr.le_last
    have := last_page_lt size
    unfold range_size sub32 add32
    omega
  unfold range_del
  split
  · show sub32 l.lru_count (range_size r) = l.lru_count
    rw [hsize, sub32_eq hl (Nat.zero_le _), Nat.sub_zero]
  rfl

/-- If every range that meets the request holds it, then at most empty ranges are absorbed. -/
theorem UnpinRun.unchanged (h : UnpinRun zalloc pgstart pgend purged rs l w)
    (hse : Interval size pgstart pgend) (hok : RangesOk (Interval size) rs)
    (hl : l.lru_count < 2 ^ 32)
    (hmeets : ∀ r ∈ rs, Meets r pgstart pgend → page_range_subsumed_by_range r pgstart pgend)
    (hret : w.ret = .error .ENOMEM) : Unchanged rs l w := by
  induction h with
  | subsumed | insert => cases hret
  | nomem => exact ⟨fun _ _ => Iff.rfl, rfl⟩
  | absorb pgstart pgend purged before after l r w hbefore hsub hin _ ih => ?_
  have hr := hok.interval r (by simp)
  have hempty : ¬r.pgstart ≤ r.pgend := fun hne =>
    hsub (hmeets r (by simp) (absorb_meets hse hr hbefore hin hne))
  obtain ⟨hmin, hmax⟩ := absorb_empty hse hr hbefore hin hempty
  have hcount := range_del_empty hr hempty hl
  rw [hmin, hmax] at ih
  obtain ⟨hpages, hlru⟩ := ih hse (hok.sublist (by simp)) (hcount.trans_lt hl)
    (fun r' hr' => hmeets r' (by simp only [List.mem_append, List.mem_cons] at hr' ⊢; tauto)) hret
  refine ⟨fun p b => (hpages p b).trans ?_, hlru.trans hcount⟩
  have hnone : ¬page_in_range r p := fun h => hempty (h.1.trans h.2)
  simp only [List.mem_append, List.mem_cons, or_and_right, exists_or, exists_eq_left, hnone,
    false_and, false_or]

end nomem

/-! ## Main theorems -/

/-- The three operations on a list in descending order, when there is memory. -/
theorem pin_and_unpin_pages {rs : List AshmemRange} {pgstart pgend : Nat}
    (hsorted : rs.Pairwise fun r r' => r'.pgend < r.pgstart)
    (hranges : ∀ r ∈ rs, r.pgstart ≤ r.pgend ∧ r.pgend < 2 ^ 32)
    (hle : pgstart ≤ pgend) (hlt : pgend < 2 ^ 32) (l : Lru) :
    (∃ w, ashmem_unpin true rs l pgstart pgend = some w ∧ w.ret = .ok 0 ∧
      RangesOk Words w.ranges ∧
      ∀ p, Unpinned w.ranges p ↔ Unpinned rs p ∨ (pgstart ≤ p ∧ p ≤ pgend)) ∧
    RangesOk Words (ashmem_pin true rs l pgstart pgend).ranges ∧
    (∀ p, Unpinned (ashmem_pin true rs l pgstart pgend).ranges p ↔
      Unpinned rs p ∧ ¬ (pgstart ≤ p ∧ p ≤ pgend)) ∧
    (ashmem_get_pin_status pgstart pgend rs = 0 ↔
      ∃ p, Unpinned rs p ∧ pgstart ≤ p ∧ p ≤ pgend) := by
  have hok : RangesOk Words rs := ⟨hsorted, hranges⟩
  have hse : Words pgstart pgend := ⟨hle, hlt⟩
  obtain ⟨w, hw, hrun⟩ := ashmem_unpin_restart_run true rs.length pgstart pgend false rs l le_rfl
  have hpin := ashmem_pin_loop_run true hle rs l false
  refine ⟨⟨w, hw, hrun.ret_ok, hrun.ranges_ok Words.intervalClass hse hok,
    hrun.unpinned hse hok⟩, ?_,
    hpin.unpinned hse hok, pin_status_iff hse hok⟩
  exact (hpin.ranges_ok Words.intervalClass hle hok
    fun hr _ hxy hye _ => ⟨hxy, Nat.lt_of_le_of_lt hye hr.2⟩).1

/-- Two ranges that the interval clips. -/
theorem pin_and_unpin_pages_two_ranges :
    ∃ w, ashmem_unpin true [⟨1, 6, 8, false⟩, ⟨0, 1, 3, true⟩] ⟨[1], 3, 2, false⟩ 3 6 = some w ∧
      ∀ p, Unpinned w.ranges p ↔
        Unpinned [⟨1, 6, 8, false⟩, ⟨0, 1, 3, true⟩] p ∨ (3 ≤ p ∧ p ≤ 6) := by
  obtain ⟨w, hw, _, _, hset⟩ := (@pin_and_unpin_pages [⟨1, 6, 8, false⟩, ⟨0, 1, 3, true⟩] 3 6
    (by decide) (by decide) (by decide) (by decide) ⟨[1], 3, 2, false⟩).1
  exact ⟨w, hw, hset⟩

/-- A call that returns `-ENOMEM` changes nothing if and only if every range that
has a page of the interval holds all of it, or the allocation does not fail. -/
theorem unpin_nomem_unchanged {size pgstart pgend : Nat} {rs : List AshmemRange} {l : Lru}
    (hse : Interval size pgstart pgend) (hok : RangesOk (Interval size) rs)
    (hl : l.lru_count < 2 ^ 32) (zalloc : Bool) :
    ∃ w, ashmem_unpin zalloc rs l pgstart pgend = some w ∧
      ((w.ret = .error .ENOMEM → Unchanged rs l w) ↔
        zalloc = true ∨
          ∀ r ∈ rs, Meets r pgstart pgend → page_range_subsumed_by_range r pgstart pgend) := by
  obtain ⟨w, hw, hrun⟩ :=
    ashmem_unpin_restart_run zalloc rs.length pgstart pgend false rs l le_rfl
  refine ⟨w, hw, ?_, ?_⟩
  · intro hsame
    cases zalloc with
    | true => exact .inl rfl
    | false => ?_
    refine .inr fun r hr hmeets => ?_
    by_contra hsub
    obtain ⟨hret, q, ⟨r', hr', hq⟩, hlost⟩ := hrun.loses_range hse hok hr hmeets hsub
    obtain ⟨r'', hr'', hq', _⟩ := ((hsame hret).1 q r'.purged).mpr ⟨r', hr', hq, rfl⟩
    exact hlost ⟨r'', hr'', hq'⟩
  rintro (rfl | hmeets) hret
  · cases hrun.ret_ok.symm.trans hret
  exact hrun.unchanged hse hok hl hmeets hret

/-- The request is inside a range. -/
theorem unpin_nomem_unchanged_inside :
    ∃ w, ashmem_unpin false [⟨0, 1, 8, false⟩] ⟨[0], 8, 1, false⟩ 2 3 = some w ∧
      (w.ret = .error .ENOMEM → Unchanged [⟨0, 1, 8, false⟩] ⟨[0], 8, 1, false⟩ w) := by
  obtain ⟨w, hw, hiff⟩ := @unpin_nomem_unchanged (9 * 4096) 2 3 [⟨0, 1, 8, false⟩]
    ⟨[0], 8, 1, false⟩ ⟨by decide, by decide, by decide, by decide⟩
    ⟨by decide, fun r hr => by cases List.mem_singleton.mp hr; exact
      ⟨by decide, by decide, by decide, by decide⟩⟩ (by decide) false
  exact ⟨w, hw, hiff.mpr (.inr fun r hr _ => by cases List.mem_singleton.mp hr; decide)⟩

/-- **Pages are pinned by an unpin.** The range is deleted when it is merged into the
request, and then there is no memory for the merged one. -/
theorem unpin_nomem_loses_pages :
    ∃ w, ashmem_unpin false [⟨0, 2, 3, false⟩] ⟨[0], 2, 1, false⟩ 3 5 = some w ∧
      w.ret = .error .ENOMEM ∧ Unpinned [⟨0, 2, 3, false⟩] 2 ∧ ¬ Unpinned w.ranges 2 ∧
      w.lru.lru_count ≠ 2 := by
  refine ⟨⟨[], ⟨[], 0, 1, false⟩, .error .ENOMEM⟩, by decide, rfl, ?_, ?_, by decide⟩
  · exact ⟨⟨0, 2, 3, false⟩, by simp, by decide⟩
  · exact unpinned_nil 2

end Nubernel.Ashmem
