import Nubernel.Ashmem.Lru

/-! # ashmem: purges are reported

The owner of an area learns of a purge when it pins the pages again.
The `purged` flag is kept per range, so it has to survive every split,
clip and merge of ranges in between.

It does, unless `kmem_cache_zalloc` fails at the wrong moment: in
`ashmem_unpin` the overlapping ranges are deleted before the merged one
is allocated, and in the last case of `ashmem_pin` the part above the
hole is dropped when it cannot be allocated. `KeepsPurges` rules out
these two, and nothing else.
-/

namespace Nubernel.Ashmem

open Arena LTS List

/-! ## One list -/

/-- Page `p` lies in a purged range. -/
def PurgedPage (rs : List AshmemRange) (p : Nat) : Prop :=
  ∃ r ∈ rs, page_in_range r p ∧ r.purged = true

/-- `ashmem_unpin` merges `r` into the interval it was asked to unpin. -/
abbrev absorbs (r : AshmemRange) (pgstart pgend : Nat) : Prop :=
  pgstart ≤ r.pgend ∧ ¬ page_range_subsumed_by_range r pgstart pgend ∧
    page_range_in_range r pgstart pgend

/-- `ashmem_pin` cuts the interval out of the middle of `r`. -/
abbrev punches (r : AshmemRange) (pgstart pgend : Nat) : Prop :=
  r.pgstart < pgstart ∧ pgend < r.pgend

variable {p pgend pgstart size asma : Nat} {rs : List AshmemRange} {l : Lru} {ret zalloc : Bool}
   {w : Walk Bool} {s s' : State}

theorem PurgedPage.cons_iff {r : AshmemRange} :
    PurgedPage (r :: rs) p ↔ (page_in_range r p ∧ r.purged = true) ∨ PurgedPage rs p := by
  simp [PurgedPage]

/-- `ashmem_pin` reports a purged page of its interval; once something purged
was found, the result is settled. -/
theorem PinRun.reports (h : PinRun zalloc pgstart pgend rs l ret w)
    (hok : RangesOk (Interval size) rs) (hp : pgstart ≤ p ∧ p ≤ pgend)
    (hpage : ret = true ∨ PurgedPage rs p) : w.ret = true := by
  induction h with
  | nil l ret => simpa [PurgedPage] using hpage
  | stop r rs l ret hstop =>
    -- everything from here on lies before the interval
    obtain ⟨hr, hlt, _⟩ := RangesOk.cons_iff.mp hok
    have := hr.le_succ
    rcases hpage with hret | ⟨r', hr', hin, _⟩
    · exact hret
    rcases mem_cons.mp hr' with rfl | hr'
    · omega
    have := hlt r' hr'
    omega
  | skip r rs l ret w hskip _ ih =>
    refine ih hok.tail (hpage.imp_right fun hpage => ?_)
    rcases PurgedPage.cons_iff.mp hpage with ⟨hin, _⟩ | hpage
    · omega
    · exact hpage
  | nuke r rs l ret w _ _ _ ih | front r rs l ret w _ _ _ _ ih | rear r rs l ret w _ _ _ _ ih =>
    refine ih hok.tail ?_
    rcases hpage with hret | hpage
    · exact .inl (by simp [hret])
    rcases PurgedPage.cons_iff.mp hpage with ⟨_, hpurged⟩ | hpage
    · exact .inl (by simp [hpurged])
    · exact .inr hpage
  | punch r _ rs _ _ ret h1 h2 _ | punch_nomem r rs _ ret h1 h2 _ =>
    -- the page is in the hole, so the range is the one around it
    obtain ⟨_, hlt, _⟩ := RangesOk.cons_iff.mp hok
    rcases hpage with hret | hpage
    · simp [hret]
    rcases PurgedPage.cons_iff.mp hpage with ⟨_, hpurged⟩ | ⟨r', hr', hin, _⟩
    · simp [hpurged]
    have := hlt r' hr'
    omega

theorem RangesOk.disjoint {I : Nat → Nat → Prop} {before after : List AshmemRange}
    {r : AshmemRange} (hok : RangesOk I (before ++ r :: after)) :
    ∀ r' ∈ before ++ after, r'.pgend < r.pgstart ∨ r.pgend < r'.pgstart := by
  have hs := hok.sorted
  rw [pairwise_append, pairwise_cons] at hs
  intro r' hr'
  rcases mem_append.mp hr' with hb | ha
  · exact .inr (hs.2.2 r' hb r (by simp))
  · exact .inl (hs.2.1.1 r' ha)

/-- Purged pages stay purged. While the request grows, a purged page is
either still in its range or has moved into the request, and then the
merged range will be allocated. -/
theorem UnpinRun.keeps {purged : Bool} {w : Walk (Except Errno Int)}
    (h : UnpinRun zalloc pgstart pgend purged rs l w) (hse : Interval size pgstart pgend)
    (hok : RangesOk (Interval size) rs)
    (hsafe : zalloc = false → ∀ r ∈ rs, r.purged = true → page_in_range r p →
      ¬ absorbs r pgstart pgend)
    (hpage : PurgedPage rs p ∨
      (zalloc = true ∧ purged = true ∧ (pgstart ≤ p ∧ p ≤ pgend) ∧
        ∀ r ∈ rs, ¬ page_in_range r p)) :
    PurgedPage w.ranges p := by
  induction h with
  | subsumed pgstart pgend purged rs l r hr h1 h2 h3 =>
    rcases hpage with hpage | ⟨_, _, hp, hnot⟩
    · exact hpage
    -- The request has grown over the page, so no range on the list has it.
    exact absurd ⟨by omega, by omega⟩ (hnot r hr)
  | insert pgstart pgend purged before after l l' new hb ha hal =>
    obtain ⟨rfl, _⟩ := range_alloc_some hal
    rcases hpage with ⟨r, hr, hin⟩ | ⟨_, hpurged, hp, _⟩
    · exact ⟨r, perm_middle.mem_iff.mpr (mem_cons_of_mem _ hr), hin⟩
    · exact ⟨⟨l.next_addr, pgstart, pgend, purged⟩, by simp, hp, hpurged⟩
  | nomem pgstart pgend purged before after l _ _ hz =>
    rcases hpage with hpage | ⟨hz', _⟩
    · exact hpage
    · simp [hz] at hz'
  | absorb pgstart pgend purged before after l r w hr hsub hin _ ih => ?_
  have hdis := hok.disjoint
  have hr' := hok.interval r (by simp)
  have hok' : RangesOk (Interval size) (before ++ after) := hok.sublist (by simp)
  have hmem : ∀ r' ∈ before ++ after, r' ∈ before ++ r :: after := by
    intro r' hr'
    exact perm_middle.mem_iff.mpr (mem_cons_of_mem _ hr')
  refine ih ((Interval.intervalClass size).join hr' hse) hok' ?_ ?_
  · -- ranges the request did not overlap, the merged one does not either
    intro hz r₂ hr₂ hpurged hin₂ habs
    have h1 := hsafe hz r₂ (hmem r₂ hr₂) hpurged hin₂
    have h2 := hdis r₂ hr₂
    omega
  rcases hpage with ⟨r₂, hr₂, hin₂, hpurged⟩ | ⟨hz, hpurged, hp, hnot⟩
  -- Either the purged page is in the range that is absorbed, or in another one.
  · by_cases heq : r₂ = r
    · subst heq
      right
      refine ⟨?_, by simp [hpurged], by omega, ?_⟩
      · cases zalloc with
        | true => rfl
        | false => exact absurd ⟨hr, hsub, hin⟩ (hsafe rfl r₂ hr₂ hpurged hin₂)
      intro r₃ hr₃ hin₃
      have := hdis r₃ hr₃
      omega
    left
    have hrest := mem_cons.mp (perm_middle.mem_iff.mp hr₂)
    exact ⟨r₂, hrest.resolve_left heq, hin₂, hpurged⟩
  right
  exact ⟨hz, by simp [hpurged], by omega, fun r₂ hr₂ => hnot r₂ (hmem r₂ hr₂)⟩

/-! ## Purged pages over a run -/

/-- Requests that find no memory do not meet a purged range: unpinning
absorbs none, pinning punches no hole into one. -/
def KeepsPurges (s : State) : Label → Prop
  | .ashmem_pin_unpin asma cmd (some (offset, len)) false =>
    ∀ a ∈ s.area asma, ∀ i ∈ pin_interval a offset len,
      ∀ r ∈ a.unpinned_list, r.purged = true →
        match cmd with
        | .ASHMEM_PIN => ¬ punches r i.1 i.2
        | .ASHMEM_UNPIN => r.pgstart ≤ r.pgend → ¬ absorbs r i.1 i.2
        | .ASHMEM_GET_PIN_STATUS => True
  | _ => True

/-- The operation is a request to pin page `p` of the area. -/
def PinsPage (asma p : Nat) (s : State) : Label → Prop
  | .ashmem_pin_unpin asma' .ASHMEM_PIN (some (offset, len)) _ =>
    asma' = asma ∧ ∃ a ∈ s.area asma, ∃ i ∈ pin_interval a offset len, i.1 ≤ p ∧ p ≤ i.2
  | _ => False

/-- Page `p` of the area, if it is still open, lies in a purged range.
Its address is not handed out again. -/
def PageIsPurged (asma p : Nat) (s : State) : Prop :=
  asma < s.lru.next_addr ∧ ∀ a ∈ s.areas, a.addr = asma → PurgedPage a.unpinned_list p

/-- Addresses are handed out in ascending order. -/
theorem next_addr_ledger (n : Nat) :
    Ledger fun _ os rs l => Books os rs l ∧ n ≤ l.next_addr where
  books := fun h => h.1
  perm := fun h hp => ⟨h.1.perm hp, h.2⟩
  done := fun h => h
  alloc := fun {os rs l zalloc purged start stop new l'} h _ hal => by
    refine ⟨h.1.range_alloc hal, ?_⟩
    obtain ⟨_, rfl⟩ := range_alloc_some hal
    split
    · exact Nat.le_succ_of_le h.2
    · exact Nat.le_succ_of_le h.2
  del := fun {b os r rs l} h => by
    refine ⟨h.1.range_del, ?_⟩
    rw [range_del]
    split <;> exact h.2
  shrink := fun {b os r rs l start stop} h _ => by
    refine ⟨h.1.range_shrink start stop, ?_⟩
    unfold range_shrink
    simp only
    split <;> exact h.2
  purge := fun h hp => ⟨h.1.purge hp, h.2⟩
  opened := fun h => ⟨Books.ledger.opened h.1, Nat.le_succ_of_le h.2⟩
  closed := fun {b _ _ _ _} h hsub => ⟨Books.ledger.closed (b := b) h.1 hsub, h.2⟩

theorem PurgedPage.modify (h : PurgedPage rs p) (addr : Nat) :
    PurgedPage (modify AshmemRange.addr addr (fun r => { r with purged := true }) rs) p := by
  obtain ⟨r, hr, hin, hpurged⟩ := h
  refine ⟨_, mem_map_of_mem hr, ?_, ?_⟩
  · split <;> exact hin
  split
  · rfl
  · exact hpurged

/-- **Step lemma**: a purged page stays purged over every operation that
meets the condition and does not pin it. -/
theorem PageIsPurged.step {l : Label} (h : PageIsPurged asma p s)
    (hstep : OpStep s l s') (hok : ListsOk Interval s.areas) (hlru : LruOk s)
    (hkeep : KeepsPurges s l) (hpin : ¬ PinsPage asma p s l) : PageIsPurged asma p s' := by
  obtain ⟨hlt, hpage⟩ := h
  -- A new area cannot get the address of this one.
  have hnext := (hstep.ledger (next_addr_ledger s.lru.next_addr) hok ⟨hlru, le_rfl⟩).2
  refine ⟨by omega, ?_⟩
  cases hstep with
  | same l => exact hpage
  | opened zalloc =>
    intro a ha haddr
    -- The new area has another address.
    rcases mem_append.mp ha with ha | ha
    · exact hpage a ha haddr
    obtain rfl := mem_singleton.mp ha
    simp only at haddr
    omega
  | released asma' a _ => exact fun a' ha' => hpage a' (mem_of_mem_filter ha')
  | quiet l asma' a a' ha haddr hlist _ _ =>
    refine set_area_forall hpage fun heq => ?_
    rw [hlist]
    exact hpage a (mem_of_at? ha).1 (haddr ▸ heq)
  | pinned asma' a offset len zalloc pgstart pgend ha _ hint =>
    obtain ⟨hmem, haddr⟩ := mem_of_at? ha
    refine set_area_forall hpage fun (heq : a.addr = asma) => ?_
    have hrs := (hok a hmem).1
    have hreq := (pin_interval_spec hint).1
    obtain rfl : asma' = asma := haddr ▸ heq
    by_cases hse : pgstart ≤ pgend
    · have hpages := (ashmem_pin_loop_run zalloc hse a.unpinned_list s.lru false).pages
        (Interval.intervalClass _) (· = true) hse hrs
      refine (hpages ?_ p).mpr ⟨hpage a hmem heq, ?_⟩
      · rintro rfl r hr hpurged
        exact hkeep a ha (pgstart, pgend) hint r hr hpurged
      intro hp
      exact hpin ⟨rfl, a, ha, (pgstart, pgend), hint, hp⟩
    have hbehind := hrs.behind (Interval.intervalClass _) hreq (by omega)
    simp only [ashmem_pin, ashmem_pin_loop_behind zalloc hbehind]
    exact hpage a hmem heq
  | unpinned asma' a offset len zalloc pgstart pgend w ha _ hint hrun =>
    obtain ⟨hmem, haddr⟩ := mem_of_at? ha
    refine set_area_forall hpage fun (heq : a.addr = asma) => ?_
    refine hrun.keeps (pin_interval_spec hint).1 (hok a hmem).1 ?_ (.inl (hpage a hmem heq))
    rintro rfl r hr hpurged hin
    exact hkeep a ha (pgstart, pgend) hint r hr hpurged (by omega)
  | shrunk l nr_to_scan areas lru hloop =>
    refine ashmem_shrink_loop_areas
      (P := fun areas => ∀ a ∈ areas, a.addr = asma → PurgedPage a.unpinned_list p) ?_ hloop hpage
    intro areas addr hareas a ha haddr
    obtain ⟨b, hb, rfl⟩ := mem_map.mp ha
    exact (hareas b hb haddr).modify addr

theorem PageIsPurged.steps {ls : List Label}
    (h : PageIsPurged asma p s) (hreach : ashmem.Reachable s)
    (hsteps : (ashmem.restrict fun s l => KeepsPurges s l ∧ ¬ PinsPage asma p s l).Steps s ls s') :
    PageIsPurged asma p s' := by
  induction hsteps with
  | nil s => exact h
  | cons hst _ ih =>
    obtain ⟨⟨hkeep, hpin⟩, hst⟩ := hst
    refine ih ?_ (hreach.step hst)
    exact h.step (ashmem_step hst) (lists_ok_reachable hreach) (lru_ok_reachable hreach) hkeep hpin

/-! ## The report -/

/-- The step purges page `p` of the area: it lay in a range that was not
purged, and now lies in one that is. -/
def Purges (asma p : Nat) (s s' : State) : Prop :=
  (∃ a ∈ s.areas, a.addr = asma ∧
    ∃ r ∈ a.unpinned_list, page_in_range r p ∧ r.purged = false) ∧
  (∃ a ∈ s'.areas, a.addr = asma ∧ PurgedPage a.unpinned_list p)

theorem Purges.pageIsPurged (h : Purges asma p s s')
    (hlru : LruOk s') : PageIsPurged asma p s' := by
  obtain ⟨_, a, ha, rfl, hpage⟩ := h
  refine ⟨?_, fun b hb heq => ?_⟩
  · exact hlru.fresh _ (mem_append_left _ (mem_map_of_mem ha))
  have hnd : (s'.areas.map AshmemArea.addr).Nodup := (nodup_append.mp hlru.nodup).1
  obtain rfl := inj_on_of_nodup_map hnd hb ha heq
  exact hpage

/-- Pinning a purged page returns `ASHMEM_WAS_PURGED`. -/
theorem PageIsPurged.reported (h : PageIsPurged asma p s)
    (hok : ListsOk Interval s.areas) {offset len : UInt32}
    (hpin : PinsPage asma p s (.ashmem_pin_unpin asma .ASHMEM_PIN (some (offset, len)) zalloc)) :
    ∃ s', run_op s (.ashmem_pin_unpin asma .ASHMEM_PIN (some (offset, len)) zalloc) =
      some (s', .ok 1) := by
  obtain ⟨_, a, ha, ⟨pgstart, pgend⟩, hint, hp⟩ := hpin
  obtain ⟨hmem, haddr⟩ := mem_of_at? ha
  obtain ⟨hrs, hfile⟩ := hok a hmem
  have hpage := h.2 a hmem haddr
  -- The request gets past `if (unlikely(!asma->file))`.
  have hfile' : a.file ≠ false := by
    intro hf
    rw [hfile hf] at hpage
    simp [PurgedPage] at hpage
  have hse : pgstart ≤ pgend := by
    omega
  have hret : (ashmem_pin zalloc a.unpinned_list s.lru pgstart pgend).ret = true :=
    (ashmem_pin_loop_run zalloc hse a.unpinned_list s.lru false).reports hrs hp (.inr hpage)
  have harea : s.area asma = some a := ha
  have hint' : pin_interval a offset len = some (pgstart, pgend) := hint
  simp [run_op, harea, ashmem_pin_unpin, hfile', hint', hret]

/-- **Purges are reported**: after a step that has purged page `p`, and
whatever is done then except pinning the page, the next request to pin
it returns `ASHMEM_WAS_PURGED`, provided no request in between lost a
purged range for lack of memory. -/
theorem purge_is_reported {asma p : Nat} {s₁ s₂ s₃ : State} {l : Label} {ls : List Label}
    (hreach : ashmem.Reachable s₁) (hstep : ashmem.step s₁ l s₂) (hpurge : Purges asma p s₁ s₂)
    (hrun : (ashmem.restrict fun s l => KeepsPurges s l ∧ ¬ PinsPage asma p s l).Steps s₂ ls s₃)
    {offset len : UInt32} {zalloc : Bool}
    (hpin : PinsPage asma p s₃ (.ashmem_pin_unpin asma .ASHMEM_PIN (some (offset, len)) zalloc)) :
    ∃ s₄, run_op s₃ (.ashmem_pin_unpin asma .ASHMEM_PIN (some (offset, len)) zalloc) =
      some (s₄, .ok 1) := by
  have hreach₂ : ashmem.Reachable s₂ := hreach.step hstep
  have hreach₃ : ashmem.Reachable s₃ := hreach₂.steps hrun.of_restrict
  have hpage := (hpurge.pageIsPurged (lru_ok_reachable hreach₂)).steps hreach₂ hrun
  exact hpage.reported (lists_ok_reachable hreach₃) hpin

/-- An area of three pages with the first two unpinned. -/
def two_unpinned : State :=
  ⟨[⟨0, [⟨1, 0, 1, false⟩], true, 12288, PROT_MASK⟩], ⟨[1], 2, 2, false⟩⟩

theorem two_unpinned_reachable : ashmem.Reachable two_unpinned :=
  ⟨initialState, [.ashmem_open true, .set_size 0 12288, .ashmem_mmap 0 3 (.ok ()),
    .ashmem_pin_unpin 0 .ASHMEM_UNPIN (some (0, 8192)) true], rfl,
    System.steps_of_replay (by decide +kernel)⟩

/-- The same after the shrinker ran. -/
def two_purged : State :=
  ⟨[⟨0, [⟨1, 0, 1, true⟩], true, 12288, PROT_MASK⟩], ⟨[], 0, 2, false⟩⟩

theorem two_unpinned_shrink :
    ashmem.step two_unpinned (.ashmem_shrink 128 true) two_purged ∧
    Purges 0 0 two_unpinned two_purged :=
  ⟨by decide +kernel, ⟨_, mem_singleton.mpr rfl, rfl, _, mem_singleton.mpr rfl,
    ⟨le_rfl, by decide⟩, rfl⟩, _, mem_singleton.mpr rfl, rfl, _, mem_singleton.mpr rfl,
    ⟨le_rfl, by decide⟩, rfl⟩

/-- The third page is unpinned as well and merged; then the first is
pinned. -/
theorem purge_is_reported_after_merge :
    ∃ s₄, run_op ⟨[⟨0, [⟨2, 0, 2, true⟩], true, 12288, PROT_MASK⟩], ⟨[], 0, 3, false⟩⟩
      (.ashmem_pin_unpin 0 .ASHMEM_PIN (some (0, 4096)) true) = some (s₄, .ok 1) := by
  refine purge_is_reported (p := 0) two_unpinned_reachable two_unpinned_shrink.1
    two_unpinned_shrink.2
    (.single (l := .ashmem_pin_unpin 0 .ASHMEM_UNPIN (some (4096, 8192)) true) ⟨⟨?_, ?_⟩, ?_⟩) ?_
  · trivial
  · exact id
  · decide +kernel
  · exact ⟨rfl, _, rfl, (0, 0), by decide +kernel, by decide⟩

/-- Without the condition the purge is lost: if there is no memory to merge
the ranges, pinning the first page returns `ASHMEM_NOT_PURGED`. -/
theorem purge_lost_without_memory :
    ¬ ∀ (asma p : Nat) (s₁ s₂ s₃ : State) (l : Label) (ls : List Label) (offset len : UInt32)
      (zalloc : Bool), ashmem.Reachable s₁ → ashmem.step s₁ l s₂ → Purges asma p s₁ s₂ →
      (ashmem.restrict fun s l => ¬ PinsPage asma p s l).Steps s₂ ls s₃ →
      PinsPage asma p s₃ (.ashmem_pin_unpin asma .ASHMEM_PIN (some (offset, len)) zalloc) →
      ∃ s₄, run_op s₃ (.ashmem_pin_unpin asma .ASHMEM_PIN (some (offset, len)) zalloc) =
        some (s₄, .ok 1) := by
  intro h
  let s₃ : State := ⟨[⟨0, [], true, 12288, PROT_MASK⟩], ⟨[], 0, 2, false⟩⟩
  have hlost : ashmem.step two_purged
      (.ashmem_pin_unpin 0 .ASHMEM_UNPIN (some (4096, 8192)) false) s₃ := by decide +kernel
  obtain ⟨s₄, hs₄⟩ := h 0 0 _ _ s₃ _ _ 0 4096 true two_unpinned_reachable two_unpinned_shrink.1
    two_unpinned_shrink.2 (.single ⟨id, hlost⟩) ⟨rfl, _, rfl, (0, 0), by decide +kernel, by decide⟩
  have hret : (run_op s₃ (.ashmem_pin_unpin 0 .ASHMEM_PIN (some (0, 4096)) true)).map Prod.snd =
      some (.ok 0) := rfl
  rw [hs₄] at hret
  simp at hret

end Nubernel.Ashmem
