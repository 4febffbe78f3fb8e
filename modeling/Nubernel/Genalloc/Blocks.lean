import Mathlib.Data.List.Forall2
import Nubernel.Framework.System
import Nubernel.Genalloc.Search

/-! # genalloc: blocks

A pool over time. Its user adds chunks, allocates blocks and frees them with the
size they were allocated with. A granule is in use if it belongs to a live block;
the bitmaps say exactly that.
-/

open LTS List Option

namespace Nubernel.Genalloc

open Bitmap Nat

/-! ## State -/

/-- A block that has been allocated. -/
structure Block where
  addr : Nat
  size : Nat
deriving DecidableEq

/-- The pool, and the blocks that its user has. -/
structure World where
  pool : Pool
  live : List Block

/-- The granules of the block, in bytes. -/
def Block.extent (b : Block) (u : Nat) : Nat := granules u b.size * u

/-- The granule at address `a` belongs to the block. -/
def Block.Covers (b : Block) (u a : Nat) : Prop := b.addr ≤ a ∧ a < b.addr + b.extent u

/-- No byte in common. -/
def Apart (a m b n : Nat) : Prop := a + m ≤ b ∨ b + n ≤ a

instance (a m b n : Nat) : Decidable (Apart a m b n) := inferInstanceAs (Decidable (_ ∨ _))

/-- Memory that may be added to the pool. -/
def Pool.Addable (pool : Pool) (addr size : Nat) : Prop :=
  0 < addr ∧ addr + size < 2 ^ 32 ∧
    ∀ c ∈ pool.chunks, Apart addr size c.start_addr (c.end_addr - c.start_addr)

instance (pool : Pool) (addr size : Nat) : Decidable (pool.Addable addr size) :=
  inferInstanceAs (Decidable (_ ∧ _ ∧ _))

/-! ## Labels -/

inductive Label where
  /-- `gen_pool_add`, and whether there is memory for the chunk. -/
  | add (addr size : Nat) (kmalloc : Bool)
  | alloc (size : Nat)
  | free (b : Block)

/-! ## System -/

def World.alloc (w : World) (size : Nat) : Option World :=
  (gen_pool_alloc w.pool size).map fun (addr, pool) =>
    { pool := pool, live := if addr = 0 then w.live else ⟨addr, size⟩ :: w.live }

def World.free (w : World) (b : Block) : Option World :=
  (gen_pool_free w.pool b.addr b.size).map fun pool => { pool := pool, live := w.live.erase b }

def World.next (w : World) : Label → Option World
  | .add addr size kmalloc =>
    if w.pool.Addable addr size then
      some { w with pool := (gen_pool_add w.pool addr size kmalloc).2 }
    else none
  | .alloc size => if 1 ≤ size ∧ size < 2 ^ 32 then w.alloc size else none
  | .free b => if b ∈ w.live then w.free b else none

/-- A pool with granules of `1 << order` bytes. -/
def genalloc (order : Nat) : System World Label :=
  System.ofFun (fun w => w.pool = gen_pool_create order ∧ w.live = []) World.next

/-- The sizes for which the numbers of granules fit the variables: the rounding up does
not wrap, and the granules asked for and those of any chunk are together below
`2 ^ 31`. -/
def Small (w : World) (size : Nat) : Prop :=
  size + 2 ^ w.pool.min_alloc_order - 1 < 2 ^ 32 ∧
    ∀ c ∈ w.pool.chunks,
      granules (2 ^ w.pool.min_alloc_order) size + c.granules (2 ^ w.pool.min_alloc_order) < 2 ^ 31

instance (w : World) (size : Nat) : Decidable (Small w size) := inferInstanceAs (Decidable (_ ∧ _))

def cond (w : World) : Label → Prop
  | .alloc size => Small w size
  | _ => True

instance (w : World) (l : Label) : Decidable (cond w l) :=
  match l with
  | .alloc size => inferInstanceAs (Decidable (Small w size))
  | .add _ _ _ => isTrue trivial
  | .free _ => isTrue trivial

/-! ## Invariant -/

/-- The chunk has room for the block, at the beginning of one of its granules. -/
def Chunk.Holds (c : Chunk) (u : Nat) (b : Block) : Prop :=
  ∃ a, b.addr = c.start_addr + a * u ∧ a + Genalloc.granules u b.size ≤ c.granules u

/-- Chunks that have no byte in common. -/
def Chunk.Apart (c d : Chunk) : Prop := c.end_addr ≤ d.start_addr ∨ d.end_addr ≤ c.start_addr

structure Inv (order : Nat) (w : World) : Prop where
  order_eq : w.pool.min_alloc_order = order
  valid : ∀ c ∈ w.pool.chunks, c.Valid
  apart : w.pool.chunks.Pairwise Chunk.Apart
  held : ∀ b ∈ w.live, 1 ≤ b.size ∧ b.size + 2 ^ order - 1 < 2 ^ 32 ∧
    ∃ c ∈ w.pool.chunks, c.Holds (2 ^ order) b ∧ c.granules (2 ^ order) < 2 ^ 31
  separate : w.live.Pairwise fun a b =>
    Genalloc.Apart a.addr (a.extent (2 ^ order)) b.addr (b.extent (2 ^ order))
  /-- The bitmaps say which granules are in use. -/
  bits : ∀ c ∈ w.pool.chunks, ∀ k < c.granules (2 ^ order),
    c.bits k = true ↔ ∃ b ∈ w.live, b.Covers (2 ^ order) (c.start_addr + k * 2 ^ order)

section facts
variable {u : Nat} {c d : Chunk} {b : Block}

theorem Chunk.Apart.symm (h : c.Apart d) : d.Apart c := Or.symm h

theorem Chunk.Holds.inside (h : c.Holds u b) (hc : c.Valid) :
    c.start_addr ≤ b.addr ∧ b.addr + b.extent u ≤ c.end_addr := by
  obtain ⟨a, haddr, hfit⟩ := h
  have hle := hc.granules_le u
  have hmul := mul_le_mul_right u hfit
  rw [add_mul] at hmul
  unfold Block.extent
  omega

theorem Block.size_le_extent (hu : 0 < u) (hsize : 1 ≤ b.size) : b.size ≤ b.extent u :=
  (granules_bounds hu hsize).2

/-- The granules of the chunk that a block of it covers. -/
theorem covers_iff {a k : Nat} (hu : 0 < u) (haddr : b.addr = c.start_addr + a * u) :
    b.Covers u (c.start_addr + k * u) ↔ a ≤ k ∧ k < a + granules u b.size := by
  unfold Block.Covers Block.extent
  rw [haddr, Nat.add_assoc, ← Nat.add_mul, Nat.add_le_add_iff_left, Nat.add_lt_add_iff_left,
    Nat.mul_le_mul_right_iff hu, Nat.mul_lt_mul_right hu]

/-- A block of another chunk covers no granule of this one. -/
theorem not_covers {k : Nat} (hd : d.Valid) (hheld : d.Holds u b) (hc : c.Valid)
    (hapart : c.Apart d) (hk : k < c.granules u) : ¬b.Covers u (c.start_addr + k * u) := by
  intro hcov
  obtain ⟨hstart, hend⟩ := hheld.inside hd
  have hle := hc.granules_le u
  have hmul := mul_le_mul_right u hk
  rw [succ_mul] at hmul
  unfold Block.Covers at hcov
  unfold Chunk.Apart at hapart
  have hu : 0 < u := by
    by_contra hzero
    have hz : u = 0 := by omega
    rw [hz] at hk
    unfold Chunk.granules at hk
    omega
  omega

end facts

/-! ### Steps -/

section steps
variable {order : Nat} {w w' : World}

theorem inv_init (hpool : w.pool = gen_pool_create order) (hlive : w.live = []) : Inv order w := by
  obtain ⟨pool, live⟩ := w
  subst hpool hlive
  refine ⟨rfl, ?_, List.Pairwise.nil, ?_, List.Pairwise.nil, ?_⟩
  · intro c hc
    cases hc
  · intro b hb
    cases hb
  intro c hc
  cases hc

section
variable (hinv : Inv order w)
include hinv

variable {size : Nat}

theorem inv_add {addr : Nat} (hadd : w.pool.Addable addr size) (kmalloc : Bool) :
    Inv order { w with pool := (gen_pool_add w.pool addr size kmalloc).2 } := by
  cases kmalloc with
  | false => exact hinv
  | true => ?_
  obtain ⟨hpos, hlt, hapart⟩ := hadd
  have hend : add32 addr size = addr + size := add32_eq hlt
  have hnew : Chunk.Valid ⟨addr, add32 addr size, fun _ => false⟩ :=
    ⟨hpos, by rw [hend]; exact le_add_right _ _, by rw [hend]; exact hlt⟩
  have happ : ∀ d ∈ w.pool.chunks, Chunk.Apart ⟨addr, add32 addr size, fun _ => false⟩ d := by
    intro d hd
    have h := hapart d hd
    unfold Genalloc.Apart at h
    unfold Chunk.Apart
    simp only [hend]
    omega
  refine ⟨hinv.order_eq, ?_, List.Pairwise.cons happ hinv.apart, ?_, hinv.separate, ?_⟩
  · exact forall_mem_cons.mpr ⟨hnew, hinv.valid⟩
  · intro b hb
    obtain ⟨hsize, hsum, c, hc, hheld⟩ := hinv.held b hb
    exact ⟨hsize, hsum, c, mem_cons_of_mem _ hc, hheld⟩
  intro c hc k hk
  rcases mem_cons.mp hc with rfl | hc
  · refine iff_of_false Bool.false_ne_true ?_
    rintro ⟨b, hb, hcov⟩
    obtain ⟨_, _, d, hd, hheld, _⟩ := hinv.held b hb
    exact not_covers (hinv.valid d hd) hheld hnew (happ d hd) hk hcov
  exact hinv.bits c hc k hk

theorem gen_pool_alloc_spec (horder : order < 32) (hsize : 1 ≤ size) (hsmall : Small w size) :
    ∃ addr pool', gen_pool_alloc w.pool size = some (addr, pool') ∧
      pool'.min_alloc_order = order ∧
      Allocated (2 ^ order) (granules (2 ^ order) size) w.pool.chunks addr pool'.chunks := by
  obtain ⟨hsum, hchunks⟩ := hsmall
  rw [hinv.order_eq] at hsum hchunks
  have hn := granules_bounds (Nat.two_pow_pos order) hsize
  obtain ⟨addr, cs', heq, halloc⟩ :=
    @alloc_chunks_spec order (granules (2 ^ order) size) w.pool.chunks hn.1 hinv.valid hchunks
  refine ⟨addr, { min_alloc_order := order, chunks := cs' }, ?_, rfl, halloc⟩
  unfold gen_pool_alloc
  rw [if_neg (by omega), hinv.order_eq, nbits_eq horder hsum, heq]
  rfl

variable {pre post : List Chunk} {c : Chunk} {a n : Nat} {b : Block}

/-- Some bits of one chunk are changed, and the blocks with them. -/
theorem Inv.change {v : Bool} {live' : List Block} {pool' : Pool}
    (hchunks : w.pool.chunks = pre ++ c :: post)
    (hchunks' : pool'.chunks = pre ++ c.filled a n v :: post)
    (horder : pool'.min_alloc_order = order)
    (hheld : ∀ b ∈ live', b ∈ w.live ∨ 1 ≤ b.size ∧ b.size + 2 ^ order - 1 < 2 ^ 32 ∧
      c.Holds (2 ^ order) b ∧ c.granules (2 ^ order) < 2 ^ 31)
    (hsep : live'.Pairwise fun a b =>
      Genalloc.Apart a.addr (a.extent (2 ^ order)) b.addr (b.extent (2 ^ order)))
    (hown : ∀ k < c.granules (2 ^ order), fill c.bits a n v k = true ↔
      ∃ b ∈ live', b.Covers (2 ^ order) (c.start_addr + k * 2 ^ order))
    (hother : ∀ d ∈ w.pool.chunks, c.Apart d → ∀ k < d.granules (2 ^ order),
      (∃ b ∈ live', b.Covers (2 ^ order) (d.start_addr + k * 2 ^ order)) ↔
        ∃ b ∈ w.live, b.Covers (2 ^ order) (d.start_addr + k * 2 ^ order)) :
    Inv order { pool := pool', live := live' } := by
  have hapart := hinv.apart
  rw [hchunks, pairwise_append, pairwise_cons] at hapart
  obtain ⟨hpre, ⟨hcpost, hpost⟩, hcross⟩ := hapart
  have hmem : ∀ d, d ∈ pool'.chunks ↔ d ∈ pre ∨ d = c.filled a n v ∨ d ∈ post := by
    intro d
    rw [hchunks', mem_append, mem_cons]
  have hold : ∀ d, d ∈ w.pool.chunks ↔ d ∈ pre ∨ d = c ∨ d ∈ post := by
    intro d
    rw [hchunks, mem_append, mem_cons]
  have hc : c ∈ w.pool.chunks := (hold c).mpr (.inr (.inl rfl))
  -- A chunk before has the same place and size.
  have hsame : ∀ d ∈ w.pool.chunks, ∃ d' ∈ pool'.chunks,
      d'.start_addr = d.start_addr ∧ d'.end_addr = d.end_addr := by
    intro d hd
    rcases (hold d).mp hd with h | rfl | h
    · exact ⟨d, (hmem d).mpr (.inl h), rfl, rfl⟩
    · exact ⟨d.filled a n v, (hmem _).mpr (.inr (.inl rfl)), rfl, rfl⟩
    · exact ⟨d, (hmem d).mpr (.inr (.inr h)), rfl, rfl⟩
  have hkeep : ∀ b d, d ∈ w.pool.chunks → d.Holds (2 ^ order) b → d.granules (2 ^ order) < 2 ^ 31 →
      ∃ d' ∈ pool'.chunks, d'.Holds (2 ^ order) b ∧ d'.granules (2 ^ order) < 2 ^ 31 := by
    intro b d hd hh hlt
    obtain ⟨d', hd', hs, he⟩ := hsame d hd
    have hg : d'.granules (2 ^ order) = d.granules (2 ^ order) := by
      unfold Chunk.granules
      rw [hs, he]
    refine ⟨d', hd', ?_, by rw [hg]; exact hlt⟩
    unfold Chunk.Holds at hh ⊢
    rw [hs, hg]
    exact hh
  refine ⟨horder, ?_, ?_, ?_, hsep, ?_⟩
  · intro d hd
    rcases (hmem d).mp hd with h | rfl | h
    · exact hinv.valid d ((hold d).mpr (.inl h))
    · have hv := hinv.valid c hc
      exact ⟨hv.pos, hv.le, hv.lt⟩
    · exact hinv.valid d ((hold d).mpr (.inr (.inr h)))
  · rw [hchunks', pairwise_append, pairwise_cons]
    refine ⟨hpre, ⟨hcpost, hpost⟩, ?_⟩
    intro d hd e he
    rcases mem_cons.mp he with rfl | he
    · exact hcross d hd c mem_cons_self
    · exact hcross d hd e (mem_cons_of_mem c he)
  · intro b hb
    rcases hheld b hb with hb | ⟨hsize, hsum, hh, hlt⟩
    · obtain ⟨hsize, hsum, d, hd, hh, hlt⟩ := hinv.held b hb
      exact ⟨hsize, hsum, hkeep b d hd hh hlt⟩
    exact ⟨hsize, hsum, hkeep b c hc hh hlt⟩
  intro d hd k hk
  rcases (hmem d).mp hd with h | rfl | h
  · have hd := (hold d).mpr (.inl h)
    rw [hinv.bits d hd k hk]
    exact (hother d hd (hcross d h c mem_cons_self).symm k hk).symm
  · exact hown k hk
  have hd := (hold d).mpr (.inr (.inr h))
  rw [hinv.bits d hd k hk]
  exact (hother d hd (hcpost d h) k hk).symm

/-- Where a chunk has a run of clear bits, it is apart from all blocks. -/
theorem Inv.apart_of_clear (hc : c ∈ w.pool.chunks)
    (hother : ∀ d ∈ w.pool.chunks, d = c ∨ c.Apart d) (hn : 0 < n)
    (hfit : a + n ≤ c.granules (2 ^ order)) (hclear : Clear c.bits a n) :
    ∀ b ∈ w.live, Genalloc.Apart (c.start_addr + a * 2 ^ order) (n * 2 ^ order) b.addr
      (b.extent (2 ^ order)) := by
  intro b hb
  have hu : 0 < 2 ^ order := Nat.two_pow_pos order
  obtain ⟨hsize, _, d, hd, hheld, _⟩ := hinv.held b hb
  have hcv := hinv.valid c hc
  rcases hother d hd with rfl | hapart
  · -- In the same chunk the two ranges of granules do not meet.
    obtain ⟨j, haddr, hj⟩ := hheld
    have hpos := (granules_bounds hu hsize).1
    by_contra hmeet
    have hmeet : a < j + granules (2 ^ order) b.size ∧ j < a + n := by
      unfold Genalloc.Apart Block.extent at hmeet
      rw [haddr, not_or, not_le, not_le, add_assoc, add_assoc, ← add_mul,
        ← Nat.add_mul, Nat.add_lt_add_iff_left, Nat.add_lt_add_iff_left, Nat.mul_lt_mul_right hu,
        Nat.mul_lt_mul_right hu] at hmeet
      exact ⟨hmeet.2, hmeet.1⟩
    have hset : d.bits (max a j) = true := by
      refine (hinv.bits d hd (max a j) (by omega)).mpr ⟨b, hb, ?_⟩
      rw [covers_iff hu haddr]
      omega
    rw [hclear (max a j) (by omega) (by omega)] at hset
    cases hset
  obtain ⟨hstart, hend⟩ := hheld.inside (hinv.valid d hd)
  have hle := hcv.granules_le (2 ^ order)
  have hmul := mul_le_mul_right (2 ^ order) hfit
  rw [add_mul] at hmul
  unfold Chunk.Apart at hapart
  unfold Genalloc.Apart
  omega

omit hinv in
/-- The other chunks are apart from this one. -/
theorem pairwise_split (h : (pre ++ c :: post).Pairwise Chunk.Apart) :
    ∀ d ∈ pre ++ c :: post, d = c ∨ c.Apart d := by
  rw [pairwise_append, pairwise_cons] at h
  intro d hd
  rcases mem_append.mp hd with hd | hd
  · exact .inr (h.2.2 d hd c mem_cons_self).symm
  rcases mem_cons.mp hd with rfl | hd
  · exact .inl rfl
  · exact .inr (h.2.1.1 d hd)

theorem inv_alloc (horder : order < 32) (hsize : 1 ≤ size) (hsmall : Small w size)
    (hstep : w.alloc size = some w') : Inv order w' := by
  have hu : 0 < 2 ^ order := Nat.two_pow_pos order
  obtain ⟨addr, pool', heq, hord, halloc⟩ := gen_pool_alloc_spec hinv horder hsize hsmall
  unfold World.alloc at hstep
  rw [heq] at hstep
  obtain rfl := some.inj hstep
  rcases halloc with ⟨pre, c, post, a, hcs, hcs', hfit, hclear, haddr⟩ | ⟨haddr, hcs', _⟩
  · have hc : c ∈ w.pool.chunks := mem_iff_append.mpr ⟨_, _, hcs⟩
    have hcv := hinv.valid c hc
    have hn := (granules_bounds hu hsize).1
    have hne : addr ≠ 0 := by
      have hpos := hcv.pos
      omega
    have hsplit : ∀ d ∈ w.pool.chunks, d = c ∨ c.Apart d := by
      have hp := hinv.apart
      rw [hcs] at hp ⊢
      exact pairwise_split hp
    have hgran : c.granules (2 ^ order) < 2 ^ 31 := by
      have hlt := hsmall.2 c hc
      rw [hinv.order_eq] at hlt
      omega
    have hsum : size + 2 ^ order - 1 < 2 ^ 32 := by
      have hlt := hsmall.1
      rw [hinv.order_eq] at hlt
      exact hlt
    have hholds : c.Holds (2 ^ order) ⟨addr, size⟩ := ⟨a, haddr, hfit⟩
    show Inv order { pool := pool', live := if addr = 0 then w.live else ⟨addr, size⟩ :: w.live }
    rw [if_neg hne]
    refine hinv.change hcs hcs' hord ?_ ?_ ?_ ?_
    · exact forall_mem_cons.mpr ⟨.inr ⟨hsize, hsum, hholds, hgran⟩, fun b hb => .inl hb⟩
    · refine List.Pairwise.cons ?_ hinv.separate
      have hap := hinv.apart_of_clear hc hsplit hn hfit hclear
      rw [← haddr] at hap
      exact hap
    · intro k hk
      have hcov : Block.Covers ⟨addr, size⟩ (2 ^ order) (c.start_addr + k * 2 ^ order) ↔
          a ≤ k ∧ k < a + granules (2 ^ order) size := covers_iff hu haddr
      simp only [mem_cons, exists_eq_or_imp, hcov]
      unfold fill
      by_cases hin : a ≤ k ∧ k < a + granules (2 ^ order) size
      · rw [if_pos hin]
        exact iff_of_true rfl (.inl hin)
      rw [if_neg hin, hinv.bits c hc k hk]
      exact ⟨.inr, fun h => h.resolve_left hin⟩
    intro d hd hapart k hk
    simp only [mem_cons, exists_eq_or_imp]
    exact or_iff_right (not_covers hcv hholds (hinv.valid d hd) hapart.symm hk)
  subst haddr
  exact ⟨hord, by rw [hcs']; exact hinv.valid, by rw [hcs']; exact hinv.apart,
    by rw [hcs']; exact hinv.held, hinv.separate, by rw [hcs']; exact hinv.bits⟩

theorem gen_pool_free_spec (horder : order < 32)
    (hb : b ∈ w.live) : ∃ pre c post a, w.pool.chunks = pre ++ c :: post ∧
      b.addr = c.start_addr + a * 2 ^ order ∧
      a + granules (2 ^ order) b.size ≤ c.granules (2 ^ order) ∧
      gen_pool_free w.pool b.addr b.size =
        some ⟨order, pre ++ c.filled a (granules (2 ^ order) b.size) false :: post⟩ := by
  obtain ⟨hsize, hsum, c, hc, ⟨a, haddr, hfit⟩, hlt⟩ := hinv.held b hb
  obtain ⟨pre, post, hcs⟩ := append_of_mem hc
  have hn := granules_bounds (Nat.two_pow_pos order) hsize
  have hcv := hinv.valid c hc
  refine ⟨pre, c, post, a, hcs, haddr, hfit, ?_⟩
  have hpre : ∀ d ∈ pre, b.addr < d.start_addr ∨ d.end_addr ≤ b.addr := by
    intro d hd
    have hp := hinv.apart
    rw [hcs, pairwise_append] at hp
    have hapart := hp.2.2 d hd c mem_cons_self
    have hle := hcv.granules_le (2 ^ order)
    have hmul := mul_le_mul_right (2 ^ order) (show a + 1 ≤ c.granules (2 ^ order) by omega)
    have hu := Nat.two_pow_pos order
    rw [succ_mul] at hmul
    unfold Chunk.Apart at hapart
    omega
  unfold gen_pool_free
  rw [hinv.order_eq, nbits_eq horder hsum, hcs, free_chunks_spec hcv hpre hfit hn.1 hlt hn.2 haddr]
  rfl

theorem inv_free (horder : order < 32) (hb : b ∈ w.live)
    (hstep : w.free b = some w') : Inv order w' := by
  have hu : 0 < 2 ^ order := Nat.two_pow_pos order
  obtain ⟨pre, c, post, a, hcs, haddr, hfit, heq⟩ := gen_pool_free_spec hinv horder hb
  unfold World.free at hstep
  rw [heq] at hstep
  obtain rfl := some.inj hstep
  have hc : c ∈ w.pool.chunks := mem_iff_append.mpr ⟨_, _, hcs⟩
  have hperm := perm_cons_erase hb
  -- The other blocks are apart from this one.
  have hsep : (b :: w.live.erase b).Pairwise fun a b =>
      Genalloc.Apart a.addr (a.extent (2 ^ order)) b.addr (b.extent (2 ^ order)) :=
    hinv.separate.perm hperm fun h => Or.symm h
  have hrest := pairwise_cons.mp hsep
  have hlive : ∀ {P : Block → Prop}, (∃ b' ∈ w.live, P b') ↔ P b ∨ ∃ b' ∈ w.live.erase b, P b' := by
    intro P
    constructor
    · rintro ⟨b', hb', hP⟩
      rcases mem_cons.mp (hperm.mem_iff.mp hb') with rfl | hb'
      · exact .inl hP
      · exact .inr ⟨b', hb', hP⟩
    rintro (hP | ⟨b', hb', hP⟩)
    · exact ⟨b, hb, hP⟩
    · exact ⟨b', mem_of_mem_erase hb', hP⟩
  refine hinv.change hcs rfl rfl ?_ hrest.2 ?_ ?_
  · intro b' hb'
    exact .inl (mem_of_mem_erase hb')
  · intro k hk
    have hcov : b.Covers (2 ^ order) (c.start_addr + k * 2 ^ order) ↔
        a ≤ k ∧ k < a + granules (2 ^ order) b.size := covers_iff hu haddr
    have hbits := hinv.bits c hc k hk
    rw [hlive, hcov] at hbits
    unfold fill
    by_cases hin : a ≤ k ∧ k < a + granules (2 ^ order) b.size
    · rw [if_pos hin]
      refine iff_of_false Bool.false_ne_true ?_
      rintro ⟨b', hb', hcov'⟩
      have hap := hrest.1 b' hb'
      have hin' := hcov.mpr hin
      unfold Block.Covers at hin' hcov'
      unfold Genalloc.Apart at hap
      omega
    rw [if_neg hin, hbits]
    exact or_iff_right hin
  intro d hd hapart k hk
  have hholds : c.Holds (2 ^ order) b := ⟨a, haddr, hfit⟩
  rw [hlive]
  exact (or_iff_right (not_covers (hinv.valid c hc) hholds (hinv.valid d hd) hapart.symm hk)).symm

omit hinv in
theorem reachable_inv (horder : order < 32)
    (hw : ((genalloc order).restrict cond).Reachable w) : Inv order w := by
  refine System.invariant ?_ ?_ hw
  · intro w hinit
    exact inv_init hinit.1 hinit.2
  intro w l w' hinv hstep
  obtain ⟨hcond, hstep⟩ := hstep
  change w.next l = some w' at hstep
  cases l with
  | add addr size kmalloc =>
    rw [World.next] at hstep
    by_cases hadd : w.pool.Addable addr size
    · rw [if_pos hadd] at hstep
      obtain rfl := some.inj hstep
      exact inv_add hinv hadd kmalloc
    rw [if_neg hadd] at hstep
    cases hstep
  | alloc size =>
    rw [World.next] at hstep
    by_cases hsize : 1 ≤ size ∧ size < 2 ^ 32
    · rw [if_pos hsize] at hstep
      exact inv_alloc hinv horder hsize.1 hcond hstep
    rw [if_neg hsize] at hstep
    cases hstep
  | free b => ?_
  rw [World.next] at hstep
  by_cases hb : b ∈ w.live
  · rw [if_pos hb] at hstep
    exact inv_free hinv horder hb hstep
  rw [if_neg hb] at hstep
  cases hstep

/-! ## Main theorem -/

/-- The chunk has a byte range of its memory for the block. -/
def Inside (cs : List Chunk) (addr size : Nat) : Prop :=
  ∃ c ∈ cs, c.start_addr ≤ addr ∧ addr + size ≤ c.end_addr

/-- No chunk has `n` granules in a row that belong to no block. -/
def Full (u n : Nat) (cs : List Chunk) (live : List Block) : Prop :=
  ∀ c ∈ cs, ∀ a, a + n ≤ c.granules u →
    ∃ k, a ≤ k ∧ k < a + n ∧ ∃ b ∈ live, b.Covers u (c.start_addr + k * u)

/-- The same chunk with the granules of the block released, and no other bit changed. -/
def Released (u : Nat) (b : Block) (c c' : Chunk) : Prop :=
  c'.start_addr = c.start_addr ∧ c'.end_addr = c.end_addr ∧
    ∀ k < c.granules u, (b.Covers u (c.start_addr + k * u) → c.bits k = true ∧ c'.bits k = false) ∧
      (¬b.Covers u (c.start_addr + k * u) → c'.bits k = c.bits k)

theorem Inv.bytes_apart : w.live.Pairwise fun a b =>
    Genalloc.Apart a.addr a.size b.addr b.size := by
  have hu : 0 < 2 ^ order := Nat.two_pow_pos order
  refine hinv.separate.imp_of_mem ?_
  intro a b ha hb hap
  have hsa := a.size_le_extent hu (hinv.held a ha).1
  have hsb := b.size_le_extent hu (hinv.held b hb).1
  unfold Genalloc.Apart at hap ⊢
  omega

theorem Inv.inside : ∀ b ∈ w.live, Inside w.pool.chunks b.addr b.size := by
  intro b hb
  obtain ⟨hsize, _, c, hc, hheld, _⟩ := hinv.held b hb
  obtain ⟨hstart, hend⟩ := hheld.inside (hinv.valid c hc)
  have hle := b.size_le_extent (Nat.two_pow_pos order) hsize
  exact ⟨c, hc, hstart, by omega⟩

/-- Where no run of bits is clear, no run of granules is without blocks. -/
theorem Inv.full
    (h : ∀ c ∈ w.pool.chunks, ∀ a, a + n ≤ c.granules (2 ^ order) → ¬Clear c.bits a n) :
    Full (2 ^ order) n w.pool.chunks w.live := by
  intro c hc a hfit
  by_contra hnone
  refine h c hc a hfit ?_
  intro k hlo hhi
  by_contra hset
  rw [Bool.not_eq_false] at hset
  exact hnone ⟨k, hlo, hhi, (hinv.bits c hc k (by omega)).mp hset⟩

theorem Inv.released (hb : b ∈ w.live) (hcs : w.pool.chunks = pre ++ c :: post)
    (haddr : b.addr = c.start_addr + a * 2 ^ order)
    (hfit : a + granules (2 ^ order) b.size ≤ c.granules (2 ^ order)) :
    List.Forall₂ (Released (2 ^ order) b) w.pool.chunks
      (pre ++ c.filled a (granules (2 ^ order) b.size) false :: post) := by
  have hu : 0 < 2 ^ order := Nat.two_pow_pos order
  have hmem : ∀ d ∈ pre ++ c :: post, d ∈ w.pool.chunks := by
    rw [hcs]
    exact fun d hd => hd
  have hc := hmem c (mem_append_right pre mem_cons_self)
  have hsplit := hinv.apart
  rw [hcs, pairwise_append, pairwise_cons] at hsplit
  have hkeep : ∀ d ∈ w.pool.chunks, c.Apart d → Released (2 ^ order) b d d := by
    intro d hd hapart
    have hholds : c.Holds (2 ^ order) b := ⟨a, haddr, hfit⟩
    refine ⟨rfl, rfl, ?_⟩
    intro k hk
    exact ⟨fun hcov => absurd hcov
      (not_covers (hinv.valid c hc) hholds (hinv.valid d hd) hapart.symm hk), fun _ => rfl⟩
  rw [hcs]
  refine rel_append ?_ (List.Forall₂.cons ?_ ?_)
  · refine List.forall₂_same.mpr ?_
    intro d hd
    exact hkeep d (hmem d (mem_append_left _ hd)) (hsplit.2.2 d hd c mem_cons_self).symm
  · refine ⟨rfl, rfl, ?_⟩
    intro k hk
    have hcov : b.Covers (2 ^ order) (c.start_addr + k * 2 ^ order) ↔
        a ≤ k ∧ k < a + granules (2 ^ order) b.size := covers_iff hu haddr
    constructor
    · intro hin
      exact ⟨(hinv.bits c hc k hk).mpr ⟨b, hb, hin⟩, if_pos (hcov.mp hin)⟩
    intro hout
    exact if_neg (fun hin => hout (hcov.mpr hin))
  refine List.forall₂_same.mpr ?_
  intro d hd
  exact hkeep d (hmem d (mem_append_right pre (mem_cons_of_mem c hd))) (hsplit.2.1.1 d hd)

end

/-- **genalloc.** As long as only small sizes are asked for, the blocks of the user are
inside of chunks and disjoint. An allocation returns such a block, or 0 if no chunk
has enough granules in a row, and then nothing changes. Freeing a block releases
exactly its granules. -/
theorem gen_pool_blocks (horder : order < 32)
    (hw : ((genalloc order).restrict cond).Reachable w) :
    (∀ b ∈ w.live, Inside w.pool.chunks b.addr b.size) ∧
    (w.live.Pairwise fun a b => Genalloc.Apart a.addr a.size b.addr b.size) ∧
    (∀ size, 1 ≤ size → Small w size → ∃ addr pool',
      gen_pool_alloc w.pool size = some (addr, pool') ∧
      (addr ≠ 0 → Inside w.pool.chunks addr size ∧
        ∀ b ∈ w.live, Genalloc.Apart addr size b.addr b.size) ∧
      (addr = 0 → pool'.chunks = w.pool.chunks ∧
        Full (2 ^ order) (granules (2 ^ order) size) w.pool.chunks w.live)) ∧
    (∀ b ∈ w.live, ∃ pool', gen_pool_free w.pool b.addr b.size = some pool' ∧
      List.Forall₂ (Released (2 ^ order) b) w.pool.chunks pool'.chunks) := by
  have hinv := reachable_inv horder hw
  have hu : 0 < 2 ^ order := Nat.two_pow_pos order
  refine ⟨hinv.inside, hinv.bytes_apart, ?_, ?_⟩
  · intro size hsize hsmall
    obtain ⟨addr, pool', heq, _, halloc⟩ := gen_pool_alloc_spec hinv horder hsize hsmall
    refine ⟨addr, pool', heq, ?_, ?_⟩
    · -- The block is in the new state, where the blocks are inside and disjoint.
      intro hne
      have hstep : w.alloc size = some { pool := pool', live := ⟨addr, size⟩ :: w.live } := by
        unfold World.alloc
        rw [heq, map_some]
        simp [if_neg hne]
      have hnext := inv_alloc hinv horder hsize hsmall hstep
      have hsep := pairwise_cons.mp hnext.bytes_apart
      refine ⟨?_, hsep.1⟩
      rcases halloc with ⟨pre, c, post, a, hcs, _, hfit, _, haddr⟩ | ⟨hzero, _⟩
      · have hc : c ∈ w.pool.chunks := mem_iff_append.mpr ⟨_, _, hcs⟩
        have hholds : c.Holds (2 ^ order) ⟨addr, size⟩ := ⟨a, haddr, hfit⟩
        obtain ⟨hstart, hend⟩ := hholds.inside (hinv.valid c hc)
        have hle := Block.size_le_extent hu (b := ⟨addr, size⟩) hsize
        exact ⟨c, hc, hstart, Nat.le_trans (Nat.add_le_add_left hle addr) hend⟩
      exact absurd hzero hne
    intro hzero
    rcases halloc with ⟨pre, c, post, a, hcs, _, _, _, haddr⟩ | ⟨_, hcs', hnone⟩
    · have hc : c ∈ w.pool.chunks := mem_iff_append.mpr ⟨_, _, hcs⟩
      have hpos := (hinv.valid c hc).pos
      omega
    exact ⟨hcs', hinv.full hnone⟩
  intro b hb
  obtain ⟨pre, c, post, a, hcs, haddr, hfit, heq⟩ := gen_pool_free_spec hinv horder hb
  exact ⟨_, heq, hinv.released hb hcs haddr hfit⟩

end steps

/-- A pool of pages with one chunk of two of them: one is allocated and given back. -/
theorem gen_pool_blocks_twoPages : ∃ w : World, ((genalloc 12).restrict cond).Reachable w ∧
    w.live = [⟨0x2000, 0x800⟩] ∧ Small w 0x1000 ∧
    (∃ addr pool', gen_pool_alloc w.pool 0x1000 = some (addr, pool') ∧
      (addr ≠ 0 → Inside w.pool.chunks addr 0x1000 ∧
        ∀ b ∈ w.live, Genalloc.Apart addr 0x1000 b.addr b.size)) := by
  have hinit : (genalloc 12).init ⟨gen_pool_create 12, []⟩ := ⟨rfl, rfl⟩
  obtain ⟨w, hreach, hlive, hsmall⟩ : ∃ w, ((genalloc 12).restrict cond).Reachable w ∧
      w.live = [⟨0x2000, 0x800⟩] ∧ Small w 0x1000 :=
    System.restrict_exists_of_replay [.add 0x1000 0x2000 true, .alloc 0x1000, .alloc 0x800,
      .free ⟨0x1000, 0x1000⟩] hinit (by decide +kernel)
  obtain ⟨addr, pool', heq, hin, _⟩ :=
    (gen_pool_blocks (by decide) hreach).2.2.1 0x1000 (by decide) hsmall
  exact ⟨w, hreach, hlive, hsmall, addr, pool', heq, hin⟩

/-- **A block of no granules.** For a size just below `2 ^ 32` the rounding up wraps to
0. The first address of the chunk is returned although the chunk is much smaller, and
the next block is at the same address. -/
theorem gen_pool_alloc_of_wrapped_size : ∃ w : World, (genalloc 12).Reachable w ∧
    w.pool.chunks.map (fun c => (c.start_addr, c.end_addr)) = [(0x1000, 0x3000)] ∧
    w.live = [⟨0x1000, 0x1000⟩, ⟨0x1000, 0xfffff800⟩] := by
  have hinit : (genalloc 12).init ⟨gen_pool_create 12, []⟩ := ⟨rfl, rfl⟩
  exact System.exists_of_replay [.add 0x1000 0x2000 true, .alloc 0xfffff800, .alloc 0x1000] hinit
    (by decide +kernel)

end Nubernel.Genalloc
