import Nubernel.Binder.Mapping

/-! # binder: the room for asynchronous transactions

Half of the mapping is for asynchronous transactions. `binder_alloc_buf`
takes the size of a buffer and of its header off `free_async_space`, and
`binder_free_buf` gives back what it computes from the sizes in the header.
All of this is done modulo the word size.
-/

namespace Nubernel.Binder

open LTS List

/-! ## Sizes -/

/-- The aligned size of the data and the offsets, without wrap-around. -/
def aligned_size (data_size offsets_size : Nat) : Nat :=
  (data_size + 3) / 4 * 4 + (offsets_size + 3) / 4 * 4

/-- What an asynchronous buffer takes, with its header. -/
def async_size (b : Buffer) : Nat :=
  if b.async_transaction then aligned_size b.data_size b.offsets_size + HEADER else 0

/-- What the allocated asynchronous buffers take together. -/
def async_used (bs : List Buffer) : Nat := ((used bs).map async_size).sum

theorem async_used_split {bs bs' xs ys : List Buffer} {b : Buffer} (h : used bs = xs ++ b :: ys)
    (h' : used bs' = xs ++ ys) : async_used bs = async_used bs' + async_size b := by
  unfold async_used
  rw [h, h', map_append, map_append, sum_append, sum_append, map_cons, sum_cons]
  omega

/-- The checks of `binder_alloc_buf` let no size pass that has wrapped. -/
theorem payload_exact {data_size offsets_size : Nat} (hdata : data_size < 2 ^ 32)
    (hoffsets : offsets_size < 2 ^ 32)
    (hfits : data_size ≤ payload data_size offsets_size ∧
      offsets_size ≤ payload data_size offsets_size) :
    payload data_size offsets_size = aligned_size data_size offsets_size ∧
      ALIGN data_size = (data_size + 3) / 4 * 4 := by
  unfold aligned_size
  unfold payload ALIGN add32 at *
  omega

/-! ## The invariant -/

/-- The sizes in the headers have not wrapped, and nothing of the half is lost. -/
structure AsyncOk (p : Proc) : Prop where
  exact : ∀ b ∈ used p.buffers,
    payload b.data_size b.offsets_size = aligned_size b.data_size b.offsets_size
  space : p.free_async_space + async_used p.buffers = p.buffer_size / 2

section steps
variable {p p' : Proc} {k addr data_size offsets_size : Nat} {is_async : Bool} {b : Buffer}

/-- Half of the mapping is less than a word. -/
theorem ProcOk.half_lt (h : ProcOk p k) : p.buffer_size / 2 < 2 ^ 31 := by
  have hguard := h.placed.guard
  unfold Proc.stop at hguard
  omega

section
variable (h : AsyncOk p) (hok : ProcOk p k)
include h hok

theorem AsyncOk.allocates (hdata : data_size < 2 ^ 32) (hoffsets : offsets_size < 2 ^ 32)
    (hall : Allocates p p' addr data_size offsets_size is_async) : AsyncOk p' := by
  obtain ⟨xs, ys, hused, hused'⟩ := hall.used
  have hexact := (payload_exact hdata hoffsets hall.fits).1
  have hsum := h.space
  have hlt := hok.half_lt
  refine ⟨?_, ?_⟩
  · intro c hc
    rw [hused', mem_append, mem_cons, or_left_comm, ← mem_append, ← hused] at hc
    rcases hc with rfl | hc
    · exact hexact
    · exact h.exact c hc
  have hspace := hall.space
  rw [async_used_split hused' hused, hall.size]
  cases is_async with
  | false =>
    rw [hspace, if_neg Bool.false_ne_true]
    simp only [async_size, Bool.false_eq_true, if_false]
    omega
  | true => ?_
  have hroom := hall.async rfl
  rw [if_pos rfl, sub32_eq (by omega) hroom, hexact] at hspace
  simp only [async_size, if_true]
  omega

theorem AsyncOk.releases (hrel : Releases p p' b) :
    AsyncOk p' := by
  obtain ⟨xs, ys, hused, hused'⟩ := hrel.used
  have hexact := h.exact b (by rw [hused]; simp)
  have hsum := h.space
  have hlt := hok.half_lt
  refine ⟨?_, ?_⟩
  · intro c hc
    apply h.exact c
    rw [hused', mem_append] at hc
    rw [hused, mem_append, mem_cons]
    exact hc.imp_right .inr
  have hspace := hrel.space
  rw [async_used_split hused hused'] at hsum
  rw [hrel.size]
  cases hasync : b.async_transaction with
  | false =>
    rw [hspace, hasync, if_neg Bool.false_ne_true]
    simp only [async_size, hasync, Bool.false_eq_true, if_false] at hsum
    omega
  | true => ?_
  simp only [async_size, hasync, if_true] at hsum
  -- The sum stays below half of the mapping, so neither addition wraps.
  rw [hasync, if_pos rfl, hexact, add32_eq (a := aligned_size _ _) (by omega),
    add32_eq (by omega)] at hspace
  omega

theorem AsyncOk.alloc_step {l : AllocLabel} (hstep : Binder.alloc_step p l = some p') :
    AsyncOk p' := by
  cases l with
  | binder_alloc_buf data_size offsets_size is_async env =>
    obtain ⟨p₁, r, heq, _, hnull, hall⟩ :=
      hok.alloc_buf data_size.toNat offsets_size.toNat is_async env
    simp only [Binder.alloc_step, heq, Option.map_some, Option.some.injEq] at hstep
    subst hstep
    cases r with
    | none =>
      rw [hnull rfl]
      exact h
    | some addr => exact h.allocates hok data_size.toNat_lt offsets_size.toNat_lt (hall addr rfl)
  | binder_free_buf addr =>
    simp only [Binder.alloc_step] at hstep
    split at hstep
    · rename_i hallocated
      obtain ⟨p₁, b, heq, _, hrel⟩ := hok.free_buf hallocated
      rw [heq] at hstep
      cases hstep
      exact h.releases hok hrel
    cases hstep
  | binder_vma_close =>
    cases hstep
    exact ⟨h.exact, h.space⟩

end

end steps

theorem asyncOk_of_reachable {p : Proc} (h : mapping.Reachable p) :
    ∃ k, ProcOk p k ∧ AsyncOk p := by
  apply System.invariant (P := fun p => ∃ k, ProcOk p k ∧ AsyncOk p) _ _ h
  · rintro p ⟨args, fault, heq⟩
    obtain ⟨r, hr, hmap⟩ := binder_mmap_spec args fault
    rw [heq] at hr
    cases hr
    obtain ⟨hok, hused, hhalf⟩ := hmap p rfl
    refine ⟨_, hok, ?_, ?_⟩
    · intro b hb
      rw [hused] at hb
      cases hb
    unfold async_used
    rw [hused, hhalf]
    rfl
  rintro p l p' ⟨k, hok, hasync⟩ hstep
  exact ⟨k, hok.alloc_step hstep, hasync.alloc_step hok hstep⟩

/-! ## Main theorem -/

/-- **Half of the mapping.** What is left for asynchronous transactions and what they
have taken add up to half of the mapping, and a buffer that is returned has
room for the data and, aligned behind it, the offsets. -/
theorem async_space_exact (p : Proc) (h : mapping.Reachable p) :
    p.free_async_space + async_used p.buffers = p.buffer_size / 2 ∧
    ∀ (data_size offsets_size : UInt32) (is_async : Bool) (env : Env) (p' : Proc) (addr : Nat),
      binder_alloc_buf p data_size.toNat offsets_size.toNat is_async env = some (p', some addr) →
      4 ∣ addr + HEADER + ALIGN data_size.toNat ∧ data_size.toNat ≤ ALIGN data_size.toNat ∧
      ALIGN data_size.toNat + offsets_size.toNat ≤ binder_buffer_size p' addr := by
  obtain ⟨k, hok, hasync⟩ := asyncOk_of_reachable h
  refine ⟨hasync.space, ?_⟩
  intro data_size offsets_size is_async env p' addr hcall
  obtain ⟨p₁, r, heq, hok', _, hall⟩ :=
    hok.alloc_buf data_size.toNat offsets_size.toNat is_async env
  rw [hcall] at heq
  cases heq
  have hall := hall addr rfl
  obtain ⟨hexact, halign⟩ := payload_exact data_size.toNat_lt offsets_size.toNat_lt hall.fits
  obtain ⟨xs, ys, _, hused⟩ := hall.used
  -- The header of the buffer is on the list, with what fits behind it.
  have hmem : (⟨addr, false, is_async, data_size.toNat, offsets_size.toNat⟩ : Buffer) ∈
      used p'.buffers := by
    rw [hused]
    simp
  obtain ⟨pre, post, hbs⟩ := append_of_mem (mem_filter.mp hmem).1
  have htiled := hok'.lists.tiled
  have hroom := hok'.room
  rw [hbs] at htiled hroom
  have hfits := (roomy_append.mp hroom).2.1 rfl
  have hsize := size_split htiled hbs
  have hdvd := (tiled_append.mp htiled).2.1
  simp only at hfits hsize hdvd
  rw [hexact, aligned_size] at hfits
  unfold HEADER at *
  omega

/-- A mapping of four pages with one asynchronous buffer of 104 bytes. -/
theorem async_space_exact_four_pages : ∃ p : Proc,
    p.free_async_space = 8048 ∧ async_used p.buffers = 144 ∧
    p.free_async_space + async_used p.buffers = p.buffer_size / 2 := by
  let args : MapArgs := ⟨0x40000000, 0x40004000, 0x1000000, by decide, by decide, by decide,
    by decide, by decide, by decide⟩
  let env : Env := ⟨true, fun _ => none, ⟨0, false, false, 0, 0⟩⟩
  obtain ⟨p, hreach, hfree, hused⟩ : ∃ p, mapping.Reachable p ∧
      p.free_async_space = 8048 ∧ async_used p.buffers = 144 :=
    exists_of_replay args
      [.binder_alloc_buf 98 4 true env, .binder_alloc_buf 50 0 true env,
       .binder_alloc_buf 4294967295 4 true env, .binder_free_buf 0x1000090] (by decide +kernel)
  exact ⟨p, hfree, hused, (async_space_exact p hreach).1⟩

end Nubernel.Binder
