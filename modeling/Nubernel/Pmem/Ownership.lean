import Nubernel.Pmem.Files

/-! # pmem: who owns the block that a connected file maps

A connected file has a copy of the index of its master and no part in
the allocation. The block stays allocated for it only as long as the
master is open, and the driver relies on `pmem_release` of the master to
take the regions away.

It does so only for files that are mapped at that time, and only if the
master itself has been mapped (`mapped_after_release`).
-/

namespace Nubernel.Pmem

open Arena LTS List
open Bool hiding not_or or_false
open Option hiding map_map

/-! ## Allocated blocks -/

/-- The block that `index` names is allocated. -/
def block_allocated (p : PmemInfo) (index : Int) : Bool :=
  if p.no_allocator then p.allocated else (p.bitmap index.toNat).allocated

variable {p : PmemInfo} {files : List PmemData} {s : State}

theorem pmem_best_fit_free {order fuel curr : Nat} {best : Option Nat} {i : Nat}
    (h : pmem_best_fit p order fuel curr best = some i) :
    best = some i ∨ PMEM_IS_FREE p i = true := by
  -- The walk keeps the best block so far, which was free when it was passed.
  induction fuel generalizing curr best with
  | zero =>
    exact .inl h
  | succ fuel ih => ?_
  unfold pmem_best_fit at h
  split at h
  · split at h
    · rename_i hfree
      split at h
      · cases h
        exact .inr hfree
      split at h
      · rcases ih h with heq | hi
        · cases heq
          exact .inr hfree
        exact .inr hi
      exact ih h
    exact ih h
  exact .inl h

/-- Two devices that differ in the orders of their bitmaps only. -/
def SameBits (p p' : PmemInfo) : Prop :=
  p'.no_allocator = p.no_allocator ∧ p'.allocated = p.allocated ∧
    ∀ i, (p'.bitmap i).allocated = (p.bitmap i).allocated

theorem set_order_same_bits (p : PmemInfo) (index order : Nat) :
    SameBits p (set_order p index order) := by
  refine ⟨rfl, rfl, ?_⟩
  intro i
  by_cases hi : i = index
  · simp [set_order, set_bits, hi]
  · simp [set_order, set_bits, hi]

theorem SameBits.trans {p' p'' : PmemInfo} (h : SameBits p p') (h' : SameBits p' p'') :
    SameBits p p'' :=
  ⟨h'.1.trans h.1, h'.2.1.trans h.2.1, fun i => (h'.2.2 i).trans (h.2.2 i)⟩

theorem SameBits.refl (p : PmemInfo) : SameBits p p := ⟨rfl, rfl, fun _ => rfl⟩

theorem pmem_split_same_bits (order best_fit fuel : Nat) (p : PmemInfo) :
    SameBits p (pmem_split order best_fit fuel p) := by
  induction fuel generalizing p with
  | zero => exact SameBits.refl p
  | succ fuel ih => ?_
  unfold pmem_split
  split
  · exact ((set_order_same_bits _ _ _).trans (set_order_same_bits _ _ _)).trans (ih _)
  · exact SameBits.refl p

theorem pmem_merge_same_bits (fuel curr : Nat) (p : PmemInfo) :
    SameBits p (pmem_merge fuel p curr) := by
  induction fuel generalizing p curr with
  | zero => exact SameBits.refl p
  | succ fuel ih => ?_
  unfold pmem_merge
  simp only
  split
  -- A round writes the orders of both buddies; `curr` goes on at the lower one.
  · have hround := (set_order_same_bits p (PMEM_BUDDY_INDEX p curr)
      (PMEM_ORDER p (PMEM_BUDDY_INDEX p curr) + 1)).trans (set_order_same_bits _ curr
        (PMEM_ORDER (set_order p (PMEM_BUDDY_INDEX p curr)
          (PMEM_ORDER p (PMEM_BUDDY_INDEX p curr) + 1)) curr + 1))
    split
    · exact hround.trans (ih _ _)
    · exact hround
  exact SameBits.refl p

/-- `pmem_allocate` takes a block that was not allocated and keeps the others. -/
theorem pmem_allocate_takes (p : PmemInfo) (len : Nat) :
    (pmem_allocate p len).1.no_allocator = p.no_allocator ∧
    (∀ i, block_allocated p i = true → block_allocated (pmem_allocate p len).1 i = true) ∧
    (0 ≤ (pmem_allocate p len).2 → block_allocated p (pmem_allocate p len).2 = false ∧
      block_allocated (pmem_allocate p len).1 (pmem_allocate p len).2 = true) := by
  unfold pmem_allocate
  simp only
  split
  -- One block for the whole device: `index` is not looked at.
  · rename_i hmode
    split
    · exact ⟨rfl, fun _ h => h, fun h => by cases h⟩
    rename_i hfree
    simp only [not_or, not_eq_true] at hfree
    refine ⟨rfl, ?_, ?_⟩
    · intro i _
      simp [block_allocated, hmode]
    intro _
    simp [block_allocated, hmode, hfree.2]
  rename_i hmode
  split
  · exact ⟨rfl, fun _ h => h, fun h => by cases h⟩
  split
  · exact ⟨rfl, fun _ h => h, fun h => by cases h⟩
  rename_i best hbest
  have hfree : (p.bitmap best).allocated = false := by
    rcases pmem_best_fit_free hbest with h | h
    · cases h
    unfold PMEM_IS_FREE at h
    simp only [and_eq_true, not_eq_true'] at h
    exact h.2
  -- Splitting writes orders only; the bit is set when the block is small enough.
  generalize hq : pmem_split _ best _ p = q
  have hsame : SameBits p q := hq ▸ pmem_split_same_bits _ _ _ p
  have hmode' : q.no_allocator = false := by
    rw [hsame.1]
    simpa using hmode
  refine ⟨hsame.1, ?_, ?_⟩
  · intro i hi
    simp only [block_allocated, hmode, if_false, false_eq_true] at hi
    simp only [block_allocated, set_allocated, set_bits, hmode', if_false, false_eq_true]
    split
    · rfl
    rw [hsame.2.2]
    exact hi
  intro _
  simp [block_allocated, set_allocated, set_bits, hmode', hmode, hfree]

/-- `pmem_free` gives up one block. -/
theorem pmem_free_keeps (p : PmemInfo) (index : Nat) :
    (pmem_free p index).no_allocator = p.no_allocator ∧
    (∀ i : Int, p.no_allocator = false → i.toNat ≠ index →
      block_allocated p i = true → block_allocated (pmem_free p index) i = true) := by
  unfold pmem_free
  split
  · rename_i hmode
    refine ⟨rfl, ?_⟩
    intro i hfalse
    rw [hmode] at hfalse
    cases hfalse
  generalize hq : pmem_merge _ _ index = q
  have hsame : SameBits (set_allocated p index false) q := hq ▸ pmem_merge_same_bits _ _ _
  refine ⟨hsame.1, ?_⟩
  intro i hfalse hne hi
  have hmode' : q.no_allocator = false := hsame.1.trans hfalse
  simp only [block_allocated, hfalse, if_false, false_eq_true] at hi
  simp only [block_allocated, hmode', if_false, false_eq_true]
  rw [hsame.2.2]
  simp [set_allocated, set_bits, hne, hi]

/-! ## The invariant -/

/-- The master of a connected file is open and owns the block. -/
def Backed (files : List PmemData) (d : PmemData) : Prop :=
  ∃ m ∈ files, d.master = some m.serial ∧ d.master_file = some m.file ∧ m.id = d.id ∧
    m.owns = true ∧ m.index = d.index

/-- A connected file that cannot map anything any more. -/
def Cut (d : PmemData) : Prop :=
  d.unsubmap = true ∨ (d.submap = true ∧ d.master_file = none ∧ d.mastermap = false)

/-- What holds of a file by itself. -/
structure FileOk (files : List PmemData) (d : PmemData) : Prop where
  /-- A file that is not connected has its index from `pmem_allocate`. -/
  own : d.connected = false → 0 ≤ d.index → d.owns = true
  mastermap : d.mastermap = true → d.owns = true
  index : d.owns = true ∨ d.connected = true → 0 ≤ d.index
  connected : d.connected = true → Backed files d ∨ Cut d

structure FilesOk (s : State) : Prop where
  files : (s.files.map PmemData.file).Nodup
  serials : (s.files.map PmemData.serial).Nodup
  opened : ∀ d ∈ s.files, d.serial < s.opened
  file : ∀ d ∈ s.files, FileOk s.files d
  owner : ∀ d ∈ s.files, d.owns = true → block_allocated (s.pmem d.id) d.index = true
  /-- No block has two owners. -/
  unique : ∀ d ∈ s.files, ∀ e ∈ s.files, d.owns = true → e.owns = true → d.id = e.id →
    (s.pmem d.id).no_allocator = true ∨ d.index = e.index → d = e

/-- The owners of blocks stay. -/
def KeepsOwners (files files' : List PmemData) : Prop :=
  ∀ m ∈ files, m.owns = true → ∃ m' ∈ files', m'.serial = m.serial ∧ m'.file = m.file ∧
    m'.id = m.id ∧ m'.owns = true ∧ m'.index = m.index

variable {d d' : PmemData} {m : Mapping} {files' : List PmemData}

theorem FileOk.of_keeps (h : FileOk files d) (hm : KeepsOwners files files') : FileOk files' d := by
  refine ⟨h.own, h.mastermap, h.index, ?_⟩
  intro hc
  rcases h.connected hc with ⟨m, hmem, h1, h2, h3, h4, h5⟩ | hcut
  · left
    obtain ⟨m', hmem', hs, hf, hi, ho, hx⟩ := hm m hmem h4
    exact ⟨m', hmem', by rw [hs, h1], by rw [hf, h2], by rw [hi, h3], ho, by rw [hx, h5]⟩
  exact .inr hcut

variable {pmem' : Nat → PmemInfo}

/-- The data of one file is written back. What a file owns it keeps, and
what it owns now was not allocated before. -/
theorem FilesOk.store (h : FilesOk s) (hd : d ∈ s.files) (hfile : d'.file = d.file)
    (hserial : d'.serial = d.serial) (hid : d'.id = d.id)
    (hkeep : d.owns = true → d'.owns = true ∧ d'.index = d.index)
    (hmode : ∀ id, (pmem' id).no_allocator = (s.pmem id).no_allocator)
    (hpmem : ∀ id i, block_allocated (s.pmem id) i = true → block_allocated (pmem' id) i = true)
    (hnew : d'.owns = true → d.owns = true ∨ (block_allocated (s.pmem d.id) d'.index = false ∧
      block_allocated (pmem' d.id) d'.index = true))
    (hok : ∀ files', KeepsOwners s.files files' → FileOk files' d') :
    FilesOk ({ s with pmem := pmem' }.store d') := by
  obtain ⟨pre, post, hsplit, hmod, _⟩ := exists_split h.files hd
  have hfiles : ({ s with pmem := pmem' }.store d').files = pre ++ d' :: post := by
    unfold State.store
    rw [hfile]
    exact hmod _
  have hold : ∀ e ∈ pre ++ post, e ∈ s.files := by
    intro e he
    rw [hsplit]
    exact perm_middle.mem_iff.mpr (mem_cons_of_mem _ he)
  have hnow : ∀ e ∈ pre ++ d' :: post, e = d' ∨ e ∈ pre ++ post := by
    intro e he
    exact mem_cons.mp (perm_middle.mem_iff.mp he)
  have hkeeps : KeepsOwners s.files (pre ++ d' :: post) := by
    intro m hm ho
    rw [hsplit] at hm
    rcases mem_cons.mp (perm_middle.mem_iff.mp hm) with rfl | hm
    · exact ⟨d', by simp, hserial, hfile, hid, (hkeep ho).1, (hkeep ho).2⟩
    · exact ⟨m, perm_middle.mem_iff.mpr (mem_cons_of_mem _ hm), rfl, rfl, rfl, ho, rfl⟩
  -- nobody else owns what `d'` owns
  have hother : ∀ e ∈ pre ++ post, e.owns = true → d'.owns = true → e.id = d.id →
      (s.pmem d.id).no_allocator = true ∨ d'.index = e.index → False := by
    intro e he heo ho hei hsame
    have hne : e ≠ d := by
      intro heq
      have := ne_of_split (hsplit ▸ h.files) e he
      rw [heq] at this
      exact this rfl
    -- It owned the block before, or the allocator has just found it free.
    rcases hnew ho with hdo | ⟨hfree, _⟩
    · apply hne
      apply h.unique e (hold e he) d hd heo hdo hei
      rw [hei]
      rcases hsame with hsame | hsame
      · exact .inl hsame
      · exact .inr (by rw [← hsame, (hkeep hdo).2])
    have halloc := h.owner e (hold e he) heo
    rw [hei] at halloc
    -- Without an allocator all indices name the one block.
    have hboth : block_allocated (s.pmem d.id) e.index = block_allocated (s.pmem d.id) d'.index := by
      rcases hsame with hsame | hsame
      · simp [block_allocated, hsame]
      · rw [hsame]
    rw [hboth, hfree] at halloc
    cases halloc
  constructor
  · rw [hfiles]
    have := h.files
    rw [hsplit] at this
    simpa [hfile] using this
  · rw [hfiles]
    have := h.serials
    rw [hsplit] at this
    simpa [hserial] using this
  · intro e he
    rw [hfiles] at he
    rcases hnow e he with rfl | he
    · rw [hserial]
      exact h.opened d hd
    exact h.opened e (hold e he)
  · rw [hfiles]
    intro e he
    rcases hnow e he with rfl | he
    · exact hok _ hkeeps
    · exact (h.file e (hold e he)).of_keeps hkeeps
  · intro e he ho
    rw [hfiles] at he
    rcases hnow e he with rfl | he
    · rw [hid]
      rcases hnew ho with hdo | ⟨_, halloc⟩
      · rw [(hkeep hdo).2]
        exact hpmem _ _ (h.owner d hd hdo)
      exact halloc
    exact hpmem _ _ (h.owner e (hold e he) ho)
  intro e he g hg heo hgo hid' hsame
  rw [hfiles] at he hg
  have hsame' : (s.pmem e.id).no_allocator = true ∨ e.index = g.index := by
    rw [← hmode]
    exact hsame
  -- Two owners: at most one of them is the file that was written.
  rcases hnow e he with hed | he'
  · rcases hnow g hg with hgd | hg'
    · rw [hed, hgd]
    exfalso
    rw [hed] at heo hid' hsame'
    rw [hid] at hid' hsame'
    exact hother g hg' hgo heo hid'.symm hsame'
  rcases hnow g hg with hgd | hg'
  · exfalso
    rw [hgd] at hgo hid' hsame'
    rw [hid] at hid'
    rw [hid'] at hsame'
    exact hother e he' heo hgo hid' (hsame'.imp_right Eq.symm)
  exact h.unique e (hold e he') g (hold g hg') heo hgo hid' hsame'

/-! ## Steps that leave the allocations alone -/

/-- What mapping, unmapping and changing regions do to the data of a file. -/
structure Touched (d d' : PmemData) : Prop where
  file : d'.file = d.file
  id : d'.id = d.id
  index : d'.index = d.index
  serial : d'.serial = d.serial
  owns : d'.owns = d.owns
  connected : d'.connected = d.connected
  master : d'.master = d.master
  master_file : d'.master_file = d.master_file
  unsubmap : d.unsubmap = true → d'.unsubmap = true
  submap : d.submap = true → d'.submap = true ∨ d'.unsubmap = true
  mastermap : d'.mastermap = true → d.mastermap = true ∨ (d.connected = false ∧ 0 ≤ d.index)

theorem Touched.refl (d : PmemData) : Touched d d :=
  ⟨rfl, rfl, rfl, rfl, rfl, rfl, rfl, rfl, fun hu => hu, Or.inl, Or.inl⟩

theorem Touched.trans {d'' : PmemData} (h : Touched d d') (h' : Touched d' d'') :
    Touched d d'' := by
  constructor
  · rw [h'.file, h.file]
  · rw [h'.id, h.id]
  · rw [h'.index, h.index]
  · rw [h'.serial, h.serial]
  · rw [h'.owns, h.owns]
  · rw [h'.connected, h.connected]
  · rw [h'.master, h.master]
  · rw [h'.master_file, h.master_file]
  · exact fun hu => h'.unsubmap (h.unsubmap hu)
  · intro hs
    rcases h.submap hs with hs' | hu'
    · exact h'.submap hs'
    · exact .inr (h'.unsubmap hu')
  intro hm
  rcases h'.mastermap hm with hm' | hm'
  · exact h.mastermap hm'
  rw [h.connected, h.index] at hm'
  exact .inr hm'

theorem Cut.touched (h : Cut d) (hc : d.connected = true) (ht : Touched d d') :
    Cut d' := by
  rcases h with hu | ⟨hs, hm, hmap⟩
  · exact .inl (ht.unsubmap hu)
  rcases ht.submap hs with hs' | hu'
  · right
    refine ⟨hs', by rw [ht.master_file, hm], ?_⟩
    by_contra hcon
    rcases ht.mastermap (by simpa using hcon) with hold | ⟨hnc, _⟩
    · rw [hmap] at hold
      cases hold
    rw [hc] at hnc
    cases hnc
  exact .inl hu'

/-- The master of the file may be another one now. -/
theorem FileOk.of_touched (h : FileOk files d) (master_file : Option Nat)
    (ht : Touched { d with master_file := master_file } d')
    (hconnected : d.connected = true → Backed files' d' ∨ Cut d') : FileOk files' d' := by
  constructor
  · rw [ht.connected, ht.index, ht.owns]
    exact h.own
  · intro hm
    rw [ht.owns]
    rcases ht.mastermap hm with hold | ⟨hnc, hi⟩
    · exact h.mastermap hold
    · exact h.own hnc hi
  · rw [ht.connected, ht.index, ht.owns]
    exact h.index
  rw [ht.connected]
  exact hconnected

theorem FileOk.touched (h : FileOk files d) (ht : Touched d d') : FileOk files d' := by
  apply h.of_touched d.master_file ht
  intro hc
  rcases h.connected hc with ⟨m, hm, hrest⟩ | hcut
  · left
    unfold Backed
    rw [ht.master, ht.master_file, ht.id, ht.index]
    exact ⟨m, hm, hrest⟩
  exact .inr (hcut.touched hc ht)

theorem FilesOk.touch (h : FilesOk s) (hd : d ∈ s.files)
    (ht : Touched d d') : FilesOk (s.store d') := by
  have hstore := h.store hd ht.file ht.serial ht.id (fun ho => ⟨ht.owns.trans ho, ht.index⟩)
    (fun _ => rfl) (fun _ _ hb => hb) (fun ho => .inl (ht.owns.symm.trans ho))
    (fun files' hk => ((h.file d hd).of_keeps hk).touched ht)
  exact hstore

theorem pmem_vma_close_touched (d : PmemData) : Touched d (pmem_vma_close d) := by
  unfold pmem_vma_close
  split
  · refine ⟨rfl, rfl, rfl, rfl, rfl, rfl, rfl, rfl, ?_, Or.inl, Or.inl⟩
    intro hu
    simp [hu]
  exact Touched.refl d

theorem pmem_lock_data_and_mm_touched (d : PmemData) (locking : Locking) :
    Touched d (pmem_lock_data_and_mm d locking).1 := by
  unfold pmem_lock_data_and_mm
  split
  · cases locking with
    | held => exact Touched.refl d
    | task_gone => exact Touched.refl d
    | vma_gone => ?_
    have hclose := pmem_vma_close_touched d
    simp only
    split
    · rename_i hu
      exact hclose.trans ⟨rfl, rfl, rfl, rfl, rfl, rfl, rfl, rfl, id, fun _ => .inr hu, Or.inl⟩
    exact hclose
  exact Touched.refl d

/-- `pmem_mmap` of a file with an allocation writes back its data. -/
theorem pmem_mmap_alloced_spec (s : State) (d : PmemData) (vma_size : Nat) (garbage_ok : Bool)
    (mapped : Nat) : ∃ d', (pmem_mmap_alloced s d vma_size garbage_ok mapped).state = s.store d' ∧
      Touched d d' ∧ ∀ m ∈ (pmem_mmap_alloced s d vma_size garbage_ok mapped).maps,
        m.file = d.file := by
  -- A connected file keeps its index; the mapping is marked.
  have hsub : Touched d { d with submap := true, vma := true } :=
    ⟨rfl, rfl, rfl, rfl, rfl, rfl, rfl, rfl, id, fun _ => .inl rfl, Or.inl⟩
  unfold pmem_mmap_alloced
  simp only
  split
  · exact ⟨d, rfl, Touched.refl d, by simp⟩
  rename_i halloc
  split
  · exact ⟨d, rfl, Touched.refl d, by simp⟩
  split
  · split
    · exact ⟨d, rfl, Touched.refl d, by simp⟩
    split
    -- A region that cannot be mapped ends the loop; those before it stay mapped.
    · refine ⟨d, rfl, Touched.refl d, ?_⟩
      intro m hm
      obtain ⟨r, _, rfl⟩ := mem_map.mp (mem_of_mem_take hm)
      rfl
    refine ⟨_, rfl, hsub, ?_⟩
    intro m hm
    obtain ⟨r, _, rfl⟩ := mem_map.mp hm
    rfl
  rename_i hnc
  have hmaster : Touched d { d with mastermap := true } := by
    refine ⟨rfl, rfl, rfl, rfl, rfl, rfl, rfl, rfl, id, Or.inl, ?_⟩
    intro _
    right
    unfold has_allocation at halloc
    exact ⟨by simpa using hnc, by simpa using halloc⟩
  split
  · exact ⟨d, rfl, Touched.refl d, by simp⟩
  · exact ⟨_, rfl, hmaster, by simp⟩

/-- `pmem_remap` under the locks: it maps only for the owner of the master
and only into an existing mapping. -/
theorem pmem_remap_locked_spec (s : State) (d : PmemData) (region : Region) (operation : RemapOp)
    (master_file : Option Nat) (kmalloc_ok remap_ok : Bool) :
    ∃ d', (pmem_remap_locked s d region operation master_file kmalloc_ok remap_ok).state =
        s.store d' ∧ Touched d d' ∧
      ∀ m ∈ (pmem_remap_locked s d region operation master_file kmalloc_ok remap_ok).maps,
        m.file = d.file ∧ is_master_owner d master_file = true ∧ PMEM_IS_SUBMAP d = true := by
  have hregions : ∀ rs, Touched d { d with region_list := rs } :=
    fun rs => ⟨rfl, rfl, rfl, rfl, rfl, rfl, rfl, rfl, id, Or.inl, Or.inl⟩
  unfold pmem_remap_locked
  simp only
  split
  · exact ⟨d, rfl, Touched.refl d, by simp⟩
  rename_i howner
  split
  · exact ⟨d, rfl, Touched.refl d, by simp⟩
  cases operation with
  | PMEM_MAP =>
    simp only
    split
    · exact ⟨d, rfl, Touched.refl d, by simp⟩
    split
    · rename_i hsub
      refine ⟨_, rfl, hregions _, ?_⟩
      intro m hm
      rw [mem_singleton.mp hm]
      exact ⟨rfl, by simpa using howner, (and_eq_true_iff.mp hsub).2⟩
    -- The region is on the list and gets mapped by a later `pmem_mmap`.
    exact ⟨_, rfl, hregions _, by simp⟩
  | PMEM_UNMAP => ?_
  simp only
  split
  · exact ⟨_, rfl, hregions _, by simp⟩
  · exact ⟨d, rfl, Touched.refl d, by simp⟩

/-! ## Steps on allocations -/

/-- The steps that keep the block of every connected file with its master.

* A file is connected to a file on the same device that allocated the
  block itself.
* A file is released only when each other file connected to it has had
  its mapping closed, or is mapped and will be revoked. -/
def Careful (s : State) : Label → Prop
  | .pmem_connect file src =>
    ∀ d ∈ s.files, ∀ m ∈ s.files, d.file = file → src = some m.file →
      has_allocation m = true → (has_allocation d = true → d.index = m.index) →
      m.id = d.id ∧ m.owns = true
  | .pmem_release file _ =>
    ∀ f ∈ s.files, ∀ d ∈ s.files, f.file = file → d.file ≠ file → d.master = some f.serial →
      d.unsubmap = true ∨ (PMEM_IS_SUBMAP d = true ∧ f.mastermap = true)
  | _ => True

instance (s : State) : (l : Label) → Decidable (Careful s l)
  | .pmem_connect file src => inferInstanceAs (Decidable
      (∀ d ∈ s.files, ∀ m ∈ s.files, d.file = file → src = some m.file →
        has_allocation m = true → (has_allocation d = true → d.index = m.index) →
        m.id = d.id ∧ m.owns = true))
  | .pmem_release file _ => inferInstanceAs (Decidable
      (∀ f ∈ s.files, ∀ d ∈ s.files, f.file = file → d.file ≠ file → d.master = some f.serial →
        d.unsubmap = true ∨ (PMEM_IS_SUBMAP d = true ∧ f.mastermap = true)))
  | .pmem_open .. | .pmem_allocate .. | .pmem_mmap .. | .pmem_remap .. | .pmem_vma_close .. =>
    inferInstanceAs (Decidable True)

/-- A file without an allocation gets one. -/
theorem FilesOk.allocate_for (h : FilesOk s) (hd : d ∈ s.files) (hneg : d.index < 0) (len : Nat)
    (ht : Touched (allocate_for s d len).2 d') :
    FilesOk ((allocate_for s d len).1.store d') := by
  -- A negative index: neither allocated nor connected so far.
  have hnot : ¬ (d.owns = true ∨ d.connected = true) := by
    intro hor
    have := (h.file d hd).index hor
    omega
  rw [not_or] at hnot
  obtain ⟨hmode, hkeep, htake⟩ := pmem_allocate_takes (s.pmem d.id) len
  have howns : d'.owns = decide (0 ≤ (pmem_allocate (s.pmem d.id) len).2) := ht.owns
  have hindex : d'.index = (pmem_allocate (s.pmem d.id) len).2 := ht.index
  have hconn : d'.connected = d.connected := ht.connected
  apply h.store hd ht.file ht.serial ht.id
  · intro ho
    exact absurd ho hnot.1
  · intro id
    split
    · rename_i hid
      rw [hid]
      exact hmode
    rfl
  · intro id i hb
    split
    · rename_i hid
      exact hkeep i (hid ▸ hb)
    exact hb
  · intro ho
    right
    rw [howns, decide_eq_true_eq] at ho
    rw [hindex]
    rw [if_pos rfl]
    exact htake ho
  intro files' _
  constructor
  · intro _ hi
    rw [howns, decide_eq_true_eq, ← hindex]
    exact hi
  · intro hm
    rcases ht.mastermap hm with hold | ⟨_, hi⟩
    · exact absurd ((h.file d hd).mastermap hold) hnot.1
    rw [howns, decide_eq_true_eq]
    exact hi
  · intro hor
    rw [howns, decide_eq_true_eq, hconn] at hor
    rw [hindex]
    rcases hor with hi | hc
    · exact hi
    · exact absurd hc hnot.2
  intro hc
  rw [hconn] at hc
  exact absurd hc hnot.2

theorem FilesOk.pmem_connect (h : FilesOk s) (hd : d ∈ s.files) {src : Option Nat}
    (hcare : Careful s (.pmem_connect d.file src)) :
    FilesOk (pmem_connect s d src).state := by
  unfold Pmem.pmem_connect
  cases hsrc : src.bind (at? PmemData.file s.files) with
  | none => exact h
  | some m => ?_
  obtain ⟨a, rfl, hat⟩ := bind_eq_some_iff.mp hsrc
  obtain ⟨hm, rfl⟩ := mem_of_at? hat
  simp only
  split
  · exact h
  rename_i halloc
  simp only [not_eq_true', not_eq_false] at halloc
  split
  · exact h
  rename_i hsame
  have hsame' : has_allocation d = true → d.index = m.index := by
    intro hda
    by_contra hne
    exact hsame ⟨hda, hne⟩
  obtain ⟨hid, howns⟩ := hcare d hd m hm rfl rfl halloc hsame'
  unfold has_allocation at halloc hsame'
  simp only [decide_eq_true_eq] at halloc hsame'
  -- An index that the file has already must be the same one.
  have hdi : d.owns = true → d.index = m.index := by
    intro ho
    exact hsame' ((h.file d hd).index (.inl ho))
  let d' : PmemData :=
    { d with
      index := m.index, connected := true, master_file := some m.file,
      master := some m.serial }
  apply h.store hd (rfl : d'.file = d.file) rfl rfl
  · intro ho
    exact ⟨ho, (hdi ho).symm⟩
  · intro _
    rfl
  · intro _ _ hb
    exact hb
  · intro ho
    exact .inl ho
  intro files' hk
  refine ⟨by simp, (h.file d hd).mastermap, fun _ => halloc, ?_⟩
  intro _
  left
  obtain ⟨m', hm', h1, h2, h3, h4, h5⟩ := hk m hm howns
  exact ⟨m', hm', by rw [h1], by rw [h2], by rw [h3]; exact hid, h4, h5⟩

theorem FilesOk.pmem_open (h : FilesOk s) {id file : Nat}
    (hnew : at? PmemData.file s.files file = none) :
    FilesOk (pmem_open s id file).state := by
  have hfile : ∀ d ∈ s.files, d.file ≠ file := by
    simpa [at?, List.find?_eq_none] using hnew
  constructor
  · show (file :: s.files.map PmemData.file).Nodup
    rw [nodup_cons]
    refine ⟨?_, h.files⟩
    intro hmem
    obtain ⟨d, hd, heq⟩ := mem_map.mp hmem
    exact hfile d hd heq
  · show (s.opened :: s.files.map PmemData.serial).Nodup
    rw [nodup_cons]
    refine ⟨?_, h.serials⟩
    intro hmem
    obtain ⟨d, hd, heq⟩ := mem_map.mp hmem
    have := h.opened d hd
    omega
  · intro d hd
    rcases mem_cons.mp hd with rfl | hd
    · exact Nat.lt_succ_self _
    · exact Nat.lt_succ_of_lt (h.opened d hd)
  · intro d hd
    rcases mem_cons.mp hd with rfl | hd
    · exact ⟨by simp, by simp, by simp, by simp⟩
    apply (h.file d hd).of_keeps
    intro m hm ho
    exact ⟨m, mem_cons_of_mem _ hm, rfl, rfl, rfl, ho, rfl⟩
  · intro d hd ho
    rcases mem_cons.mp hd with rfl | hd
    · cases ho
    · exact h.owner d hd ho
  intro d hd e he hdo heo
  rcases mem_cons.mp hd with rfl | hd
  · cases hdo
  rcases mem_cons.mp he with rfl | he
  · cases heo
  · exact h.unique d hd e he hdo heo

/-! ## Release -/

/-- A revoked file loses its master, and else only what closing its mapping
takes. -/
theorem pmem_revoke_touched (d : PmemData) (locking : Locking) :
    Touched { d with master_file := none } (pmem_revoke d locking) := by
  have hlock := pmem_lock_data_and_mm_touched { d with master_file := none } locking
  unfold pmem_revoke
  simp only
  split
  · exact hlock.trans ⟨rfl, rfl, rfl, rfl, rfl, rfl, rfl, rfl, id, Or.inl, Or.inl⟩
  · exact hlock

theorem revoke_sub_cases (f : PmemData) (locking : Nat → Locking) (d : PmemData) :
    (revoke_sub f locking d = d ∧ ¬ (f.mastermap = true ∧ d.id = f.id ∧
      PMEM_IS_SUBMAP d = true ∧ d.master_file = some f.file)) ∨
    (d.master_file = some f.file ∧
      Touched { d with master_file := none } (revoke_sub f locking d)) := by
  unfold revoke_sub
  split
  · rename_i hcond
    simp only [and_eq_true, decide_eq_true_eq] at hcond
    exact .inr ⟨hcond.2, pmem_revoke_touched d _⟩
  rename_i hcond
  simp only [and_eq_true, decide_eq_true_eq] at hcond
  exact .inl ⟨rfl, fun h => hcond ⟨⟨⟨h.1, h.2.1⟩, h.2.2.1⟩, h.2.2.2⟩⟩

/-- What revoking leaves of a file. -/
theorem revoke_sub_touched (f : PmemData) (locking : Nat → Locking) (d : PmemData) :
    ∃ master_file, Touched { d with master_file := master_file } (revoke_sub f locking d) := by
  rcases revoke_sub_cases f locking d with ⟨heq, _⟩ | ⟨_, ht⟩
  · rw [heq]
    exact ⟨d.master_file, Touched.refl d⟩
  exact ⟨none, ht⟩

section release
variable {s : State} {f : PmemData} {locking : Nat → Locking}

theorem mem_released {e : PmemData}
    (he : e ∈ free PmemData.file f.file (s.files.map (revoke_sub f locking))) :
    ∃ d ∈ s.files, d.file ≠ f.file ∧ revoke_sub f locking d = e := by
  obtain ⟨hmem, hne⟩ := mem_filter.mp he
  obtain ⟨d, hd, rfl⟩ := mem_map.mp hmem
  obtain ⟨_, ht⟩ := revoke_sub_touched f locking d
  rw [ht.file] at hne
  exact ⟨d, hd, by simpa using hne, rfl⟩

section
variable (h : FilesOk s) (hf : f ∈ s.files) (hcare : Careful s (.pmem_release f.file locking))
include h hf hcare

/-- A file that stays open when `f` is released is backed by another file
or cut off. -/
theorem FilesOk.file_released (hd : d ∈ s.files) (hne : d.file ≠ f.file) :
    FileOk (free PmemData.file f.file (s.files.map (revoke_sub f locking)))
      (revoke_sub f locking d) := by
  have hok := h.file d hd
  obtain ⟨master_file, ht⟩ := revoke_sub_touched f locking d
  apply hok.of_touched master_file ht
  intro hc
  rcases hok.connected hc with ⟨m, hm, hser, hmf, hid, howns, hidx⟩ | hcut
  · by_cases hmf' : m.file = f.file
    · -- its master is the file that is released
      have hmeq : m = f := inj_on_of_nodup_map h.files hm hf hmf'
      subst hmeq
      right
      -- `d` is no master of the block, since that is `m`.
      have hnotown : d.mastermap = false := by
        by_contra hcon
        have hdo := hok.mastermap (by simpa using hcon)
        have heq := h.unique d hd m hf hdo howns hid.symm (.inr hidx.symm)
        exact hne (by rw [heq])
      -- Its mapping was closed, or it is revoked now.
      rcases hcare m hf d hd rfl hne hser with hu | ⟨hsub, hmm⟩
      · left
        rcases revoke_sub_cases m locking d with ⟨heq, _⟩ | ⟨_, ht⟩
        · rw [heq]
          exact hu
        exact ht.unsubmap hu
      rcases revoke_sub_cases m locking d with ⟨_, hnot⟩ | ⟨_, ht⟩
      · exact absurd ⟨hmm, hid.symm, hsub, hmf⟩ hnot
      have hsub' : d.submap = true := (and_eq_true_iff.mp hsub).1
      have hcut : Cut { d with master_file := none } := .inr ⟨hsub', rfl, hnotown⟩
      exact hcut.touched hc ht
    -- its master stays
    left
    have hnot : d.master_file ≠ some f.file := by
      rw [hmf]
      simpa using hmf'
    obtain ⟨_, hm'⟩ := revoke_sub_touched f locking m
    refine ⟨revoke_sub f locking m, ?_, ?_, ?_, ?_, ?_, ?_⟩
    · refine mem_filter.mpr ⟨mem_map_of_mem hm, ?_⟩
      rw [hm'.file]
      simpa using hmf'
    · rw [ht.master, hm'.serial]
      exact hser
    · rcases revoke_sub_cases f locking d with ⟨heq, _⟩ | ⟨hmf'', _⟩
      · rw [heq, hm'.file]
        exact hmf
      exact absurd hmf'' hnot
    · rw [hm'.id, ht.id]
      exact hid
    · rw [hm'.owns]
      exact howns
    rw [hm'.index, ht.index]
    exact hidx
  right
  -- A file that was cut off stays so, revoked or not.
  rcases revoke_sub_cases f locking d with ⟨heq, _⟩ | ⟨hmf, ht⟩
  · rw [heq]
    exact hcut
  rcases hcut with hu | ⟨_, hnone, _⟩
  · exact .inl (ht.unsubmap hu)
  rw [hnone] at hmf
  cases hmf

/-- Releasing a file, when the blocks of the others stay allocated. -/
theorem FilesOk.released (hmode : ∀ id, (pmem' id).no_allocator = (s.pmem id).no_allocator)
    (hpmem : ∀ d ∈ s.files, d.file ≠ f.file → d.owns = true →
      block_allocated (pmem' d.id) d.index = true) :
    FilesOk ⟨pmem', free PmemData.file f.file (s.files.map (revoke_sub f locking)),
      s.opened⟩ := by
  have hfiles : (s.files.map (revoke_sub f locking)).map PmemData.file =
      s.files.map PmemData.file := by
    rw [map_map]
    exact map_congr_left fun d _ => (revoke_sub_touched f locking d).choose_spec.file
  have hserials : (s.files.map (revoke_sub f locking)).map PmemData.serial =
      s.files.map PmemData.serial := by
    rw [map_map]
    exact map_congr_left fun d _ => (revoke_sub_touched f locking d).choose_spec.serial
  constructor
  · apply List.Nodup.sublist (filter_sublist.map _)
    rw [hfiles]
    exact h.files
  · apply List.Nodup.sublist (filter_sublist.map _)
    rw [hserials]
    exact h.serials
  · intro e he
    obtain ⟨d, hd, _, rfl⟩ := mem_released he
    obtain ⟨_, ht⟩ := revoke_sub_touched f locking d
    rw [ht.serial]
    exact h.opened d hd
  · intro e he
    obtain ⟨d, hd, hne, rfl⟩ := mem_released he
    exact h.file_released hf hcare hd hne
  · intro e he ho
    obtain ⟨d, hd, hne, rfl⟩ := mem_released he
    obtain ⟨_, ht⟩ := revoke_sub_touched f locking d
    rw [ht.owns] at ho
    rw [ht.id, ht.index]
    exact hpmem d hd hne ho
  intro e he e' he' ho ho' hid hsame
  obtain ⟨d, hd, _, rfl⟩ := mem_released he
  obtain ⟨d', hd', _, rfl⟩ := mem_released he'
  obtain ⟨_, ht⟩ := revoke_sub_touched f locking d
  obtain ⟨_, ht'⟩ := revoke_sub_touched f locking d'
  rw [ht.owns] at ho
  rw [ht'.owns] at ho'
  rw [ht.id, ht'.id] at hid
  rw [hmode, ht.id, ht.index, ht'.index] at hsame
  rw [h.unique d hd d' hd' ho ho' hid hsame]

theorem FilesOk.pmem_release :
    FilesOk (pmem_release s f locking).state := by
  unfold Pmem.pmem_release
  split
  · rename_i hfree
    unfold has_allocation at hfree
    simp only [and_eq_true, not_eq_true', decide_eq_true_eq] at hfree
    have howns := (h.file f hf).own hfree.1 hfree.2
    obtain ⟨hmode, hkeep⟩ := pmem_free_keeps (s.pmem f.id) f.index.toNat
    apply h.released hf hcare
    · intro id
      split
      · rename_i hid
        rw [hid]
        exact hmode
      rfl
    intro d hd hne ho
    have halloc := h.owner d hd ho
    split
    · rename_i hid
      -- the other owners on the device have other blocks
      have hnot : ¬ ((s.pmem d.id).no_allocator = true ∨ d.index = f.index) := by
        intro hsame
        exact hne (by rw [h.unique d hd f hf ho howns hid hsame])
      rw [not_or] at hnot
      rw [hid] at hnot halloc
      have hdi := (h.file d hd).index (.inl ho)
      exact hkeep d.index (by simpa using hnot.1) (by omega) halloc
    exact halloc
  -- A connected file, or one without an allocation, has no block to give up.
  apply h.released hf hcare
  · intro id
    rfl
  intro d hd _ ho
  exact h.owner d hd ho

end

end release

/-! ## All runs -/

variable {s : State} {l : Label} {r : Result}

theorem FilesOk.pmem_mmap (h : FilesOk s) (hd : d ∈ s.files) (vm_pgoff vma_size : Nat)
    (garbage_ok : Bool) (mapped : Nat) :
    FilesOk (pmem_mmap s d vm_pgoff vma_size garbage_ok mapped).state ∧
      ∀ m ∈ (pmem_mmap s d vm_pgoff vma_size garbage_ok mapped).maps, m.file = d.file ∧ ¬ Cut d := by
  unfold Pmem.pmem_mmap
  split
  · exact ⟨h, by simp⟩
  split
  · exact ⟨h, by simp⟩
  rename_i hflags
  simp only [or_eq_true, not_or, not_eq_true] at hflags
  -- A file that is or was mapped is refused.
  have hcut : ¬ Cut d := by
    intro hcut
    rcases hcut with hu | ⟨hs, _⟩
    · rw [hflags.2] at hu
      cases hu
    rw [hflags.1] at hs
    cases hs
  split
  · rename_i hindex
    obtain ⟨d', heq, ht, hmaps⟩ := pmem_mmap_alloced_spec (Pmem.allocate_for s d vma_size).1
      (Pmem.allocate_for s d vma_size).2 vma_size garbage_ok mapped
    rw [heq]
    exact ⟨h.allocate_for hd (by omega) vma_size ht, fun m hm => ⟨hmaps m hm, hcut⟩⟩
  obtain ⟨d', heq, ht, hmaps⟩ := pmem_mmap_alloced_spec s d vma_size garbage_ok mapped
  rw [heq]
  exact ⟨h.touch hd ht, fun m hm => ⟨hmaps m hm, hcut⟩⟩

theorem FilesOk.pmem_remap (h : FilesOk s) (hd : d ∈ s.files) (region : Region)
    (operation : RemapOp) (locking : Locking) (master_file : Option Nat)
    (kmalloc_ok remap_ok : Bool) :
    let r := pmem_remap s d region operation locking master_file kmalloc_ok remap_ok
    FilesOk r.state ∧ ∀ m ∈ r.maps, m.file = d.file ∧ (d.connected = true → ¬ Cut d) := by
  have hlock := pmem_lock_data_and_mm_touched d locking
  unfold Pmem.pmem_remap
  simp only
  split
  · exact ⟨h, by simp⟩
  split
  · exact ⟨h, by simp⟩
  split
  · exact ⟨h.touch hd hlock, by simp⟩
  obtain ⟨d', heq, ht, hmaps⟩ := pmem_remap_locked_spec s (pmem_lock_data_and_mm d locking).1
    region operation master_file kmalloc_ok remap_ok
  rw [heq]
  refine ⟨h.touch hd (hlock.trans ht), ?_⟩
  intro m hm
  obtain ⟨hfile, howner, hsub⟩ := hmaps m hm
  refine ⟨hfile.trans hlock.file, ?_⟩
  intro hc hcut
  unfold PMEM_IS_SUBMAP at hsub
  simp only [and_eq_true, not_eq_true'] at hsub
  rcases hcut.touched hc hlock with hu | ⟨_, hnone, hmap⟩
  · rw [hsub.2] at hu
    cases hu
  -- without a master nobody is its owner
  unfold is_master_owner at howner
  rw [hnone, hmap] at howner
  cases master_file with
  | none => simp at howner
  | some a => simp at howner

/-- A step maps for the file it is about, and not if that is cut off. Every careful step
keeps the invariant. -/
theorem FilesOk.step (h : FilesOk s) (hstep : file_step s l = some r) :
    (∀ m ∈ r.maps, ∃ d ∈ s.files, m.file = d.file ∧ (d.connected = true → ¬ Cut d)) ∧
      (Careful s l → FilesOk r.state) := by
  cases l with
    simp only [file_step, bind_eq_bind, bind_eq_some_iff, some.injEq] at hstep
  | pmem_open id file =>
    split at hstep
    · cases hstep
    rename_i hnew
    cases hstep
    exact ⟨nofun, fun _ => h.pmem_open (by simpa using hnew)⟩
  | pmem_allocate file len =>
    obtain ⟨d, hat, rfl⟩ := hstep
    obtain ⟨hd, rfl⟩ := mem_of_at? hat
    unfold pmem_ioctl_allocate
    split
    · exact ⟨by simp, fun _ => h⟩
    rename_i hnot
    unfold has_allocation at hnot
    refine ⟨by simp, fun _ => ?_⟩
    exact h.allocate_for hd (by simpa using hnot) len.toNat (Touched.refl _)
  | pmem_mmap file vm_pgoff vma_size garbage_ok mapped =>
    obtain ⟨d, hat, rfl⟩ := hstep
    have hd := (mem_of_at? hat).1
    obtain ⟨hok, hmaps⟩ := h.pmem_mmap hd vm_pgoff.toNat vma_size.toNat garbage_ok mapped
    exact ⟨fun m hm => ⟨d, hd, (hmaps m hm).1, fun _ => (hmaps m hm).2⟩, fun _ => hok⟩
  | pmem_connect file src =>
    obtain ⟨d, hat, rfl⟩ := hstep
    obtain ⟨hd, rfl⟩ := mem_of_at? hat
    refine ⟨?_, fun hcare => h.pmem_connect hd hcare⟩
    unfold Pmem.pmem_connect
    split
    · exact nofun
    split
    · exact nofun
    · split <;> exact nofun
  | pmem_remap file offset len operation locking master_file kmalloc_ok remap_ok =>
    obtain ⟨d, hat, rfl⟩ := hstep
    have hd := (mem_of_at? hat).1
    obtain ⟨hok, hmaps⟩ := h.pmem_remap hd _ operation locking master_file kmalloc_ok remap_ok
    exact ⟨fun m hm => ⟨d, hd, hmaps m hm⟩, fun _ => hok⟩
  | pmem_vma_close file =>
    obtain ⟨d, hat, rfl⟩ := hstep
    exact ⟨by simp, fun _ => h.touch (mem_of_at? hat).1 (pmem_vma_close_touched d)⟩
  | pmem_release file locking =>
    obtain ⟨d, hat, hstep⟩ := hstep
    obtain ⟨hd, rfl⟩ := mem_of_at? hat
    split at hstep
    · cases hstep
    cases hstep
    refine ⟨?_, h.pmem_release hd⟩
    unfold Pmem.pmem_release
    split <;> simp

theorem files_ok_reachable {config : Config}
    (h : ((pmem_files config).restrict Careful).Reachable s) : FilesOk s := by
  refine System.invariant ?_ ?_ h
  · intro s hinit
    obtain rfl := hinit
    exact ⟨nodup_nil, nodup_nil, by simp [start], by simp [start], by simp [start], by simp [start]⟩
  intro s l s' hok hstep
  obtain ⟨hcare, hnext⟩ := hstep
  obtain ⟨r, hr, rfl⟩ := map_eq_some_iff.mp hnext
  exact (hok.step hr).2 hcare

/-- The block that the index of `d` names on its device is allocated, and
its owner is the file that `d` was connected to. -/
def MasterOwns (s : State) (d : PmemData) : Prop :=
  ∃ m ∈ s.files, d.master = some m.serial ∧ m.id = d.id ∧ m.owns = true ∧ m.index = d.index ∧
    block_allocated (s.pmem d.id) d.index = true

/-- A connected file that is not cut off. -/
theorem FilesOk.master_owns (h : FilesOk s) (hd : d ∈ s.files) (hc : d.connected = true)
    (hnot : ¬ Cut d) : MasterOwns s d := by
  rcases (h.file d hd).connected hc with ⟨m, hm, hser, _, hid, ho, hidx⟩ | hcut
  · refine ⟨m, hm, hser, hid, ho, hidx, ?_⟩
    rw [← hid, ← hidx]
    exact h.owner m hm ho
  exact absurd hcut hnot

/-- Two pages on each device. -/
def two_pages : Config := fun _ => (0x1000000, 0x2000, false)

end Nubernel.Pmem
