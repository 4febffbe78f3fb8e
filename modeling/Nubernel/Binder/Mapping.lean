import Nubernel.Binder.Buffers
import Nubernel.Rbtree.Index

/-! # binder: the mapping of a process over whole runs

From `binder_mmap` on, the calls of `binder_alloc_buf` and
`binder_free_buf` keep the invariant of the buffers, whatever pages
cannot be added on the way. The main result reads it off in terms of
the bytes of the mapping.
-/

namespace Nubernel.Binder

open LTS List Option Rbtree

/-! ## Runs keep the invariant -/

/-- The mapping that `binder_mmap` sets up: one free buffer, and the page of
its header. -/
theorem binder_mmap_spec (args : MapArgs) (fault : Nat → Option Fault) :
    ∃ r, binder_mmap args.vm_start args.vm_end (some args.area) true fault = some r ∧
      ∀ p, r = .ok p → ProcOk p (args.area / 4096) ∧ used p.buffers = [] ∧
        p.free_async_space = p.buffer_size / 2 := by
  obtain ⟨vm_start, vm_end, area, hstart, hend, hlt, haligned, hpos, hguard⟩ := args
  have hk : area = area / 4096 * 4096 := (Nat.div_mul_cancel haligned).symm
  simp only
  generalize hsz : min (vm_end - vm_start) SZ_4M = size at hguard
  have hdvd : 4096 ∣ size := by
    unfold SZ_4M PAGE_SIZE at *
    omega
  have hge : 4096 ≤ size := by
    unfold SZ_4M PAGE_SIZE at *
    omega
  let p₀ : Proc := ⟨false, area, size, [], .leaf, .leaf, 0, fun _ => false⟩
  have hrange := update_page_range_alloc (p := p₀) (k := area / 4096) area (area + PAGE_SIZE) true
    fault hk haligned (Nat.dvd_add haligned (Nat.dvd_refl _)) (Nat.le_refl area) (fun _ _ _ => rfl)
  unfold binder_mmap
  simp only [hsz, Bool.not_true, Bool.false_eq_true, if_false]
  rcases hrange with ⟨pages', heq, hpages⟩ | heq
  · rw [heq]
    let b : Buffer := ⟨area, true, false, 0, 0⟩
    let p₁ : Proc := { p₀ with pages := pages', buffers := [b] }
    have hlists : Lists p₁ [(area, area + size - (area + HEADER))] := by
      refine ⟨rfl, by simp [p₁], ⟨?_, ?_, trivial⟩, ⟨[], ?_, [], ?_, rfl, .nil⟩, rfl⟩
      · show 4 ∣ area
        omega
      · show area + HEADER ≤ area + size
        unfold HEADER
        omega
      · exact Perm.refl _
      · exact Perm.refl _
    obtain ⟨t, hins, hlists'⟩ := insert_free_buffer_spec hlists
    refine ⟨.ok { p₁ with free_buffers := t, free_async_space := size / 2, vma := true }, ?_, ?_⟩
    · change (binder_insert_free_buffer p₁ area).map _ = _
      rw [hins]
      rfl
    intro p hp
    cases hp
    refine ⟨⟨⟨hk, hdvd, hguard⟩, ?_, ⟨?_, trivial⟩, ?_, isChain_singleton _⟩, rfl, rfl⟩
    · exact ⟨hlists'.first, hlists'.some, hlists'.tiled, hlists'.free, hlists'.allocs⟩
    · intro hcon
      cases hcon
    intro i
    show pages' i = true ↔ Resident (area + size) [b] (area / 4096 + i)
    rw [hpages i]
    simp only [p₀, b, Resident, PAGE_SIZE, HEADER, if_true, or_false, Bool.false_eq_true, false_or]
    omega
  rw [heq]
  exact ⟨_, rfl, fun p hp => by cases hp⟩

theorem ProcOk.alloc_step {p p' : Proc} {k : Nat} (h : ProcOk p k) {l : AllocLabel}
    (hstep : Binder.alloc_step p l = some p') : ProcOk p' k := by
  cases l with
  | binder_alloc_buf data_size offsets_size is_async env =>
    obtain ⟨p₁, r, heq, hok, _⟩ := h.alloc_buf data_size.toNat offsets_size.toNat is_async env
    simp only [Binder.alloc_step, heq, map_some, Option.some.injEq] at hstep
    exact hstep ▸ hok
  | binder_free_buf addr =>
    simp only [Binder.alloc_step] at hstep
    split at hstep
    · rename_i hallocated
      obtain ⟨p₁, _, heq, hok, _⟩ := h.free_buf hallocated
      rw [heq] at hstep
      cases hstep
      exact hok
    cases hstep
  -- Only `vma` goes away; pages are freed as before.
  | binder_vma_close =>
    cases hstep
    exact ⟨⟨h.placed.buffer, h.placed.size, h.placed.guard⟩,
      ⟨h.lists.first, h.lists.some, h.lists.tiled, h.lists.free, h.lists.allocs⟩,
      h.room, h.pages, h.merged⟩

theorem procOk_of_reachable {p : Proc} (h : mapping.Reachable p) : ∃ k, ProcOk p k := by
  apply System.invariant (P := fun p => ∃ k, ProcOk p k) _ _ h
  · rintro p ⟨args, fault, heq⟩
    obtain ⟨r, hr, hok⟩ := binder_mmap_spec args fault
    rw [heq] at hr
    cases hr
    exact ⟨_, (hok p rfl).1⟩
  rintro p l p' ⟨k, hok⟩ hstep
  exact ⟨k, hok.alloc_step hstep⟩

/-- A run of the functions themselves, with what is seen at its end. -/
theorem exists_of_replay {P : Proc → Prop} [DecidablePred P] (args : MapArgs)
    (run : List AllocLabel)
    (h : (((binder_mmap args.vm_start args.vm_end (some args.area) true fun _ => none).bind
      fun r => r.toOption.bind fun p => run.foldlM alloc_step p).any
        fun p => decide (P p)) = true) :
    ∃ p, mapping.Reachable p ∧ P p := by
  obtain ⟨p, h, hP⟩ := System.exists_of_any h
  obtain ⟨r, hr, h⟩ := bind_eq_some_iff.mp h
  obtain ⟨p₀, hp₀, h⟩ := bind_eq_some_iff.mp h
  refine ⟨p, ⟨p₀, run, ⟨args, fun _ => none, ?_⟩, System.steps_of_replay h⟩, hP⟩
  cases r with
  | error e => cases hp₀
  | ok q =>
    cases hp₀
    exact hr

/-! ## The bytes of the mapping -/

/-- The end of a buffer with its header. -/
def buffer_stop (p : Proc) (b : Buffer) : Nat := b.addr + HEADER + binder_buffer_size p b.addr

/-- The end of what must be in memory of a buffer. -/
def needed_stop (p : Proc) (b : Buffer) : Nat :=
  if b.free then b.addr + HEADER else buffer_stop p b

section bytes
variable {p : Proc} {stop : Nat} {bs pre post : List Buffer} {b : Buffer}

theorem buffer_stop_split (ht : Tiled p.stop (pre ++ b :: post)) (hbs : p.buffers = pre ++ b :: post) :
    buffer_stop p b = next_start post p.stop := by
  have hroom := (tiled_append.mp ht).2.2.1
  unfold buffer_stop
  rw [size_split ht hbs]
  omega

/-- Every byte from the first buffer on lies in one. -/
theorem Tiled.covers (h : Tiled stop bs) (x : Nat) : (next_start bs stop ≤ x ∧ x < stop) ↔
    ∃ pre b post, bs = pre ++ b :: post ∧ b.addr ≤ x ∧ x < next_start post stop := by
  constructor
  · intro hx
    induction bs with
    | nil =>
      simp only [next_start] at hx
      omega
    | cons b bs ih =>
      by_cases hlt : x < next_start bs stop
      · exact ⟨[], b, bs, rfl, hx.1, hlt⟩
      obtain ⟨pre, c, post, rfl, hrest⟩ := ih h.2.2 ⟨by omega, hx.2⟩
      exact ⟨b :: pre, c, post, rfl, hrest⟩
  rintro ⟨pre, b, post, rfl, h1, h2⟩
  have hb := (h.mem (b := b) (by simp)).1
  have hle := (tiled_append.mp h).2.2.2.start_le
  exact ⟨by omega, by omega⟩

theorem resident_iff {i : Nat} : Resident stop bs i ↔ ∃ pre b post, bs = pre ++ b :: post ∧
    b.addr < (i + 1) * PAGE_SIZE ∧
    i * PAGE_SIZE < if b.free then b.addr + HEADER else next_start post stop := by
  constructor
  · intro hr
    induction bs with
    | nil => cases hr
    | cons b bs ih =>
      rcases hr with hr | hr
      · exact ⟨[], b, bs, rfl, hr⟩
      obtain ⟨pre, c, post, rfl, hrest⟩ := ih hr
      exact ⟨b :: pre, c, post, rfl, hrest⟩
  rintro ⟨pre, b, post, rfl, hrest⟩
  exact resident_append.mpr (.inr (.inl hrest))

theorem Tiled.buffer_stops (ht : Tiled p.stop (pre ++ bs)) (hbs : p.buffers = pre ++ bs) :
    bs.Pairwise fun a b => buffer_stop p a ≤ b.addr := by
  induction bs generalizing pre with
  | nil => exact .nil
  | cons b bs ih =>
    constructor
    · intro c hc
      rw [buffer_stop_split ht hbs]
      exact ((tiled_append.mp ht).2.2.2.mem hc).1
    have ht' : Tiled p.stop ((pre ++ [b]) ++ bs) := by simpa using ht
    exact ih ht' (by simpa using hbs)

end bytes

/-- What holds of the buffers of a process between two calls. -/
structure BuffersOk (p : Proc) : Prop where
  /-- The buffers are in the order of their addresses and do not overlap. -/
  ordered : p.buffers.Pairwise fun a b => buffer_stop p a ≤ b.addr
  /-- They cover the mapping and nothing else. -/
  covered : ∀ x, (p.buffer ≤ x ∧ x < p.stop) ↔
    ∃ b ∈ p.buffers, b.addr ≤ x ∧ x < buffer_stop p b
  /-- No two adjacent ones are both free. -/
  merged : ∀ pre a b post, p.buffers = pre ++ a :: b :: post →
    ¬ (a.free = true ∧ b.free = true)
  free_buffers : p.free_buffers.toList.Perm ((p.buffers.filter Buffer.free).map Buffer.addr) ∧
    p.free_buffers.toList.Pairwise fun a b => binder_buffer_size p a ≤ binder_buffer_size p b
  allocated_buffers :
    p.allocated_buffers.toList.Perm ((p.buffers.filter fun b => !b.free).map Buffer.addr) ∧
    p.allocated_buffers.toList.Pairwise fun a b => a < b
  /-- Page `i` is there if it has a byte of a header or of an allocated
  buffer, and only then. -/
  pages : ∀ i, p.pages i = true ↔
    ∃ b ∈ p.buffers, ∃ x, p.buffer + i * PAGE_SIZE ≤ x ∧ x < p.buffer + (i + 1) * PAGE_SIZE ∧
      b.addr ≤ x ∧ x < needed_stop p b

theorem ProcOk.buffersOk {p : Proc} {k : Nat} (h : ProcOk p k) : BuffersOk p := by
  have ht := h.lists.tiled
  have hsplit : ∀ {pre b post}, p.buffers = pre ++ b :: post →
      buffer_stop p b = next_start post p.stop := fun hbs => buffer_stop_split (hbs ▸ ht) hbs
  refine ⟨?_, ?_, ?_, ?_, ?_, ?_⟩
  · have ht' : Tiled p.stop ([] ++ p.buffers) := ht
    exact ht'.buffer_stops rfl
  · intro x
    rw [← h.lists.first, ht.covers x]
    constructor
    · rintro ⟨pre, b, post, hbs, h1, h2⟩
      exact ⟨b, by rw [hbs]; simp, h1, by rw [hsplit hbs]; exact h2⟩
    rintro ⟨b, hb, h1, h2⟩
    obtain ⟨pre, post, hbs⟩ := append_of_mem hb
    rw [hsplit hbs] at h2
    exact ⟨pre, b, post, hbs, h1, h2⟩
  · intro pre a b post hbs
    have := h.merged
    rw [hbs] at this
    exact (merged_append_cons.mp this).2.2.2 b (by simp)
  -- The tree has pairs of address and size; the code computes the sizes again.
  · obtain ⟨fs, hperm, l, hl, hlist, hsorted⟩ := h.lists.free
    have hmem : ∀ x ∈ l, x ∈ frees p.stop p.buffers := fun x hx =>
      hperm.mem_iff.mpr (by simpa using hl.mem_iff.mp hx)
    rw [hlist]
    constructor
    · rw [← map_fst_frees p.stop]
      exact (hl.trans (by simpa using hperm.symm)).map _
    rw [pairwise_map]
    apply hsorted.imp_of_mem
    intro x y hx hy hxy
    have hsx : binder_buffer_size p x.1 = x.2 := size_of_mem_frees ht (hmem x hx)
    have hsy : binder_buffer_size p y.1 = y.2 := size_of_mem_frees ht (hmem y hy)
    rw [hsx, hsy]
    exact hxy
  · rw [h.lists.allocs]
    refine ⟨Perm.refl _, ?_⟩
    unfold allocs
    rw [pairwise_map]
    apply (ht.pairwise.sublist filter_sublist).imp
    intro a b hab
    unfold HEADER at hab
    omega
  intro i
  rw [h.pages i, resident_iff]
  have hk := h.placed.buffer
  have hneeded : ∀ {pre b post}, p.buffers = pre ++ b :: post → needed_stop p b =
      (if b.free then b.addr + HEADER else next_start post p.stop) ∧
      b.addr < needed_stop p b := by
    intro pre b post hbs
    have hroom := (tiled_append.mp (hbs ▸ ht : Tiled p.stop (pre ++ b :: post))).2.2.1
    unfold needed_stop HEADER at *
    rw [hsplit hbs]
    refine ⟨rfl, ?_⟩
    split <;> omega
  unfold PAGE_SIZE
  constructor
  · rintro ⟨pre, b, post, hbs, h1, h2⟩
    obtain ⟨heq, hlt⟩ := hneeded hbs
    -- The first byte of the buffer in the page.
    refine ⟨b, by rw [hbs]; simp, max b.addr ((k + i) * 4096), ?_⟩
    omega
  rintro ⟨b, hb, x, h1, h2, h3, h4⟩
  obtain ⟨pre, post, hbs⟩ := append_of_mem hb
  rw [(hneeded hbs).1] at h4
  exact ⟨pre, b, post, hbs, by omega, by omega⟩

/-- **Main theorem.** `binder_mmap` runs into no `BUG_ON`. In every state
that allocations and releases lead to from there, the buffers tile the
mapping, the trees and the pages agree with them, and no further allocation
or release runs into a `BUG_ON` on the buffers, the trees or the pages, or
frees a page that is not there. An allocation that returns `NULL` has
changed nothing. -/
theorem mapping_buffers_ok :
    (∀ (args : MapArgs) (fault : Nat → Option Fault),
      (binder_mmap args.vm_start args.vm_end (some args.area) true fault).isSome) ∧
    ∀ p, mapping.Reachable p →
      BuffersOk p ∧
      (∀ (data_size offsets_size : UInt32) (is_async : Bool) (env : Env), ∃ p' r,
        binder_alloc_buf p data_size.toNat offsets_size.toNat is_async env = some (p', r) ∧
        (r = none → p' = p)) ∧
      (∀ addr, is_allocated p addr = true → (binder_free_buf p addr).isSome) := by
  constructor
  · intro args fault
    obtain ⟨r, heq, _⟩ := binder_mmap_spec args fault
    rw [heq]
    rfl
  intro p h
  obtain ⟨k, hok⟩ := procOk_of_reachable h
  refine ⟨hok.buffersOk, ?_, ?_⟩
  · intro data_size offsets_size is_async env
    obtain ⟨p', r, heq, _, hnull, _⟩ := hok.alloc_buf data_size.toNat offsets_size.toNat is_async env
    exact ⟨p', r, heq, hnull⟩
  intro addr hallocated
  obtain ⟨p', _, heq, _⟩ := hok.free_buf hallocated
  rw [heq]
  rfl

/-- A mapping of four pages after two allocations, one that found no memory,
and the release of the first. -/
theorem mapping_buffers_ok_four_pages : ∃ p : Proc,
    p.buffers.map (fun b => (b.addr, b.free)) =
      [(0x1000000, true), (0x100008c, false), (0x10010bc, true)] ∧
    p.free_buffers.toList = [0x1000000, 0x10010bc] ∧ p.allocated_buffers.toList = [0x100008c] ∧
    p.pages 0 = true ∧ p.pages 1 = true ∧ p.pages 2 = false ∧ BuffersOk p := by
  let args : MapArgs := ⟨0x40000000, 0x40004000, 0x1000000, by decide, by decide, by decide,
    by decide, by decide, by decide⟩
  let env : Env := ⟨true, fun _ => none, ⟨0, false, false, 0, 0⟩⟩
  obtain ⟨p, hreach, hbuffers, hfree, hallocated, h0, h1, h2⟩ : ∃ p, mapping.Reachable p ∧
      p.buffers.map (fun b => (b.addr, b.free)) =
        [(0x1000000, true), (0x100008c, false), (0x10010bc, true)] ∧
      p.free_buffers.toList = [0x1000000, 0x10010bc] ∧ p.allocated_buffers.toList = [0x100008c] ∧
      p.pages 0 = true ∧ p.pages 1 = true ∧ p.pages 2 = false :=
    exists_of_replay args
      [.binder_alloc_buf 100 0 false env, .binder_alloc_buf 4100 4 false env,
       .binder_alloc_buf 4200 8 false { env with fault := fun _ => some .vm_insert_page },
       .binder_free_buf 0x1000000] (by decide +kernel)
  exact ⟨p, hbuffers, hfree, hallocated, h0, h1, h2, (mapping_buffers_ok.2 p hreach).1⟩

/-! ## Freeing by user address -/

def lookup_loop (p : Proc) (kern_ptr : Nat) : Rbtree.Tree Nat → Option (Option Nat)
  | .leaf => some none
  | .node _ l buffer r =>
    -- `BUG_ON(buffer->free)`.
    if is_free p buffer then none
    else if kern_ptr < buffer then lookup_loop p kern_ptr l
    else if buffer < kern_ptr then lookup_loop p kern_ptr r
    else some (some buffer)

def binder_buffer_lookup (p : Proc) (user_buffer_offset user_ptr : UInt32) : Option (Option Nat) :=
  lookup_loop p (sub32 (sub32 user_ptr.toNat user_buffer_offset.toNat) HEADER) p.allocated_buffers

section lookup
variable {p : Proc}

theorem lookup_loop_eq {k : Nat} {t : Rbtree.Tree Nat}
    (h : ∀ b ∈ t.toList, is_free p b = false) :
    lookup_loop p k t = some (Rbtree.lookup id k t) := by
  induction t with
  | leaf => rfl
  | node c l b r ihl ihr =>
    simp only [toList_node, mem_append, mem_cons] at h
    simp [lookup_loop, Rbtree.lookup, h b, ihl fun b hb => h b (.inl hb),
      ihr fun b hb => h b (.inr (.inr hb)), apply_ite some]

/-- **Freeing by user address.** In every state and for every address, `binder_buffer_lookup`
runs into no `BUG_ON`, and finds an allocated buffer with its data there, if there is one. What
it finds can be freed, once no transaction uses it. -/
theorem lookup_finds_allocated (h : mapping.Reachable p) (user_buffer_offset user_ptr : UInt32) :
    ∃ r, binder_buffer_lookup p user_buffer_offset user_ptr = some r ∧
      (∀ addr, r = some addr ↔ (∃ b ∈ p.buffers, b.free = false ∧ b.addr = addr) ∧
        add32 (addr + HEADER) user_buffer_offset.toNat = user_ptr.toNat) ∧
      ∀ addr, r = some addr → (binder_free_buf p addr).isSome := by
  obtain ⟨k, hok⟩ := procOk_of_reachable h
  have ht := hok.lists.tiled
  have hmem : ∀ {a}, a ∈ p.allocated_buffers.toList ↔ _ := hok.lists.allocs ▸ mem_allocs
  have hfound := @lookup_eq_some _ id _ hok.buffersOk.allocated_buffers.2
  refine ⟨_, lookup_loop_eq ?_, fun addr => ?_, fun addr hr => ?_⟩
  · intro a ha
    obtain ⟨b, hb, hfree, rfl⟩ := hmem.mp ha
    rw [is_free_of_mem ht hb, hfree]
  · rw [hfound, hmem]
    refine and_congr_right ?_
    rintro ⟨b, hb, _, rfl⟩
    have hend := (ht.mem hb).2
    have hguard := hok.placed.guard
    have := user_ptr.toNat_lt
    have := user_buffer_offset.toNat_lt
    unfold sub32 add32 HEADER at *
    simp only [id]
    omega
  obtain ⟨b, hb, hfree, rfl⟩ := hmem.mp (hfound.mp hr).1
  obtain ⟨pre, post, hbs⟩ := append_of_mem hb
  have hall : is_allocated p b.addr = true := by
    rw [hbs] at ht
    simp [is_allocated, hbs, Arena.at?_split ht.nodup, hfree]
  obtain ⟨_, _, heq, _⟩ := hok.free_buf hall
  simp [heq]

end lookup

theorem lookup_finds_allocated_first : ∃ p r, mapping.Reachable p ∧
    binder_buffer_lookup p 0x3f000000 0x40000028 = some r ∧ r = some 0x1000000 := by
  obtain ⟨p, hreach, hused⟩ : ∃ p, mapping.Reachable p ∧
      ∃ b ∈ p.buffers, b.free = false ∧ b.addr = 0x1000000 :=
    exists_of_replay ⟨0x40000000, 0x40004000, 0x1000000, by decide, by decide, by decide,
      by decide, by decide, by decide⟩
      [.binder_alloc_buf 100 0 false ⟨true, fun _ => none, ⟨0, false, false, 0, 0⟩⟩] (by decide +kernel)
  obtain ⟨r, heq, hr, _⟩ := lookup_finds_allocated hreach 0x3f000000 0x40000028
  exact ⟨p, r, hreach, heq, (hr _).mpr ⟨hused, by decide⟩⟩

end Nubernel.Binder
