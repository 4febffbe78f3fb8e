import Mathlib.Data.List.Chain
import Nubernel.Binder.Layout

/-! # binder: the buffers of a process over all allocations

The list of buffers determines what the two trees hold (`Lists`) and
which pages are present (`PagesOk`). Each operation is followed through
the states it passes: between taking a free buffer out of its tree and
putting it back, one buffer is in neither tree.
-/

namespace Nubernel.Binder

open Arena LTS List Rbtree
open Option hiding all_eq_true filter_map

/-! ## What the trees hold -/

/-- A tree with the given free buffers, by size. -/
def HoldsFree (t : Rbtree.Tree Nat) (fs : List (Nat × Nat)) : Prop :=
  ∃ l : List (Nat × Nat), l.Perm fs ∧ t.toList = l.map Prod.fst ∧
    l.Pairwise fun x y => x.2 ≤ y.2

variable {fs : List (Nat × Nat)} {t : Rbtree.Tree Nat} {a : Nat}

theorem HoldsFree.perm {fs' : List (Nat × Nat)} (h : HoldsFree t fs)
    (hp : fs.Perm fs') : HoldsFree t fs' := by
  obtain ⟨l, hl, hrest⟩ := h
  exact ⟨l, hl.trans hp, hrest⟩

theorem HoldsFree.mem (h : HoldsFree t fs)
    (ha : a ∈ t.toList) : ∃ s, (a, s) ∈ fs := by
  obtain ⟨l, hl, hlist, _⟩ := h
  rw [hlist] at ha
  obtain ⟨⟨a', s⟩, hx, rfl⟩ := mem_map.mp ha
  exact ⟨s, hl.mem_iff.mp hx⟩

theorem HoldsFree.insert (h : HoldsFree t fs)
    {size : Nat → Nat} (hsize : ∀ x ∈ fs, size x.1 = x.2) (a s : Nat) :
    HoldsFree (rb_insert (fun b => decide (s < size b)) a t) ((a, s) :: fs) := by
  obtain ⟨l, hl, hlist, hsorted⟩ := h
  have hsize' : ∀ x ∈ l, size x.1 = x.2 := fun x hx => hsize x (hl.mem_iff.mp hx)
  have hmono : t.toList.Pairwise fun b c => decide (s < size b) = true →
      decide (s < size c) = true := by
    rw [hlist, pairwise_map]
    apply hsorted.imp_of_mem
    intro x y hx hy hxy
    rw [hsize' x hx, hsize' y hy]
    simp only [decide_eq_true_eq]
    omega
  have hpart : ∀ f : Bool → Bool, t.toList.filter (fun b => f (decide (s < size b))) =
      (l.filter fun x => f (decide (s < x.2))).map Prod.fst := by
    intro f
    rw [hlist, filter_map]
    congr 1
    apply filter_congr
    intro x hx
    simp [hsize' x hx]
  refine ⟨l.filter (fun x => !decide (s < x.2)) ++ (a, s) :: l.filter (fun x => decide (s < x.2)),
    ?_, ?_, ?_⟩
  · have hparts : (l.filter (fun x => !decide (s < x.2)) ++
        l.filter fun x => decide (s < x.2)).Perm l :=
      perm_append_comm.trans (filter_append_perm _ l)
    exact perm_middle.trans ((hparts.trans hl).cons _)
  · have hright := hpart id
    simp only [id] at hright
    rw [rb_insert_toList hmono, hpart not, hright]
    simp
  rw [pairwise_append, pairwise_cons]
  refine ⟨hsorted.filter _, ⟨?_, hsorted.filter _⟩, ?_⟩
  · intro y hy
    have := (mem_filter.mp hy).2
    simp only [decide_eq_true_eq] at this
    omega
  intro x hx y hy
  have hx' := (mem_filter.mp hx).2
  simp only [Bool.not_eq_true', decide_eq_false_iff_not] at hx'
  rcases mem_cons.mp hy with rfl | hy
  · omega
  have hy' := (mem_filter.mp hy).2
  simp only [decide_eq_true_eq] at hy'
  omega

theorem HoldsFree.erase {xs ys : List (Nat × Nat)} {s : Nat}
    (h : HoldsFree t (xs ++ (a, s) :: ys))
    (hnd : ((xs ++ (a, s) :: ys).map Prod.fst).Nodup) :
    HoldsFree (rb_erase a t) (xs ++ ys) := by
  obtain ⟨l, hl, hlist, hsorted⟩ := h
  have hmem : a ∈ t.toList := by
    rw [hlist]
    exact mem_map.mpr ⟨(a, s), hl.mem_iff.mpr (by simp), rfl⟩
  obtain ⟨pre, post, hsplit, herased⟩ := rb_erase_toList hmem
  rw [hlist] at hsplit
  obtain ⟨l₁, l₂, rfl, hpre, hpost⟩ := map_eq_append_iff.mp hsplit
  obtain ⟨x, l₃, rfl, hx, hpost'⟩ := map_eq_cons_iff.mp hpost
  have hxs : x = (a, s) := by
    have hxmem : x ∈ xs ++ (a, s) :: ys := hl.mem_iff.mp (by simp)
    exact inj_on_of_nodup_map hnd hxmem (by simp) hx
  subst hxs
  refine ⟨l₁ ++ l₃, ?_, ?_, ?_⟩
  · exact (perm_middle.symm.trans (hl.trans perm_middle)).cons_inv
  · rw [herased, ← hpre, ← hpost']
    simp
  · exact hsorted.sublist ((List.Sublist.refl l₁).append (sublist_cons_self _ l₃))

variable {xs ys : List Nat} {p : Proc}

theorem insert_by_addr (h : t.toList = xs ++ ys) (hxs : ∀ x ∈ xs, x < a) (hys : ∀ y ∈ ys, a < y) :
    (rb_insert (fun b => decide (a < b)) a t).toList = xs ++ a :: ys := by
  have hleft : ∀ x ∈ xs, decide (a < x) = false := fun x hx => by
    have := hxs x hx
    simp only [decide_eq_false_iff_not]
    omega
  have hright : ∀ y ∈ ys, decide (a < y) = true := fun y hy => by
    simpa using hys y hy
  rw [rb_insert_toList]
  · have h1 : xs.filter (fun b => !decide (a < b)) = xs :=
      filter_eq_self.mpr fun x hx => by rw [hleft x hx]; rfl
    have h2 : ys.filter (fun b => !decide (a < b)) = [] :=
      filter_eq_nil_iff.mpr fun y hy => by rw [hright y hy]; simp
    have h3 : xs.filter (fun b => decide (a < b)) = [] :=
      filter_eq_nil_iff.mpr fun x hx => by rw [hleft x hx]; simp
    have h4 : ys.filter (fun b => decide (a < b)) = ys := filter_eq_self.mpr hright
    rw [h, filter_append, filter_append, h1, h2, h3, h4]
    simp
  rw [h, pairwise_append]
  refine ⟨?_, ?_, ?_⟩
  · exact pairwise_of_forall_mem_list fun x hx y _ hgo => by rw [hleft x hx] at hgo; cases hgo
  · exact pairwise_of_forall_mem_list fun x _ y hy _ => hright y hy
  · exact fun x _ y hy _ => hright y hy

theorem erase_by_addr (h : t.toList = xs ++ a :: ys)
    (hnd : (xs ++ a :: ys).Nodup) : (rb_erase a t).toList = xs ++ ys := by
  obtain ⟨pre, post, hsplit, herased⟩ := rb_erase_toList (x := a) (t := t) (by rw [h]; simp)
  rw [herased]
  rw [h] at hsplit
  have hnot := (nodup_cons.mp (nodup_middle.mp hnd)).1
  simp only [mem_append, not_or] at hnot
  obtain ⟨rfl, _, rfl⟩ := (append_cons_inj_of_notMem hnot.1 hnot.2).mp hsplit
  rfl

/-! ## The invariant -/

/-- The place of the mapping, which starts at page number `k`. -/
structure Placed (p : Proc) (k : Nat) : Prop where
  buffer : p.buffer = k * 4096
  size : 4096 ∣ p.buffer_size
  guard : p.stop + 4096 ≤ 2 ^ 32

/-- The list of buffers tiles the mapping and says what the trees hold; the
free buffers in `out` are in no tree. -/
structure Lists (p : Proc) (out : List (Nat × Nat)) : Prop where
  first : next_start p.buffers p.stop = p.buffer
  some : p.buffers ≠ []
  tiled : Tiled p.stop p.buffers
  free : ∃ fs, (frees p.stop p.buffers).Perm (out ++ fs) ∧ HoldsFree p.free_buffers fs
  allocs : p.allocated_buffers.toList = allocs p.buffers

def PagesOk (p : Proc) (k : Nat) : Prop :=
  ∀ i, p.pages i = true ↔ Resident p.stop p.buffers (k + i)

/-- No two free buffers follow each other. -/
def Merged (bs : List Buffer) : Prop :=
  bs.IsChain fun a b => ¬ (a.free = true ∧ b.free = true)

/-- The headers of the allocated buffers. -/
def used (bs : List Buffer) : List Buffer := bs.filter fun b => !b.free

/-- Nothing is allocated or released. -/
structure SameUse (p p' : Proc) : Prop where
  size : p'.buffer_size = p.buffer_size
  space : p'.free_async_space = p.free_async_space
  used : used p'.buffers = used p.buffers

/-- The call has returned the buffer at `addr`. -/
structure Allocates (p p' : Proc) (addr data_size offsets_size : Nat) (is_async : Bool) : Prop where
  fits : data_size ≤ payload data_size offsets_size ∧ offsets_size ≤ payload data_size offsets_size
  async : is_async = true → payload data_size offsets_size + HEADER ≤ p.free_async_space
  size : p'.buffer_size = p.buffer_size
  space : p'.free_async_space = if is_async
    then sub32 p.free_async_space (payload data_size offsets_size + HEADER) else p.free_async_space
  used : ∃ xs ys, used p.buffers = xs ++ ys ∧
    used p'.buffers = xs ++ ⟨addr, false, is_async, data_size, offsets_size⟩ :: ys

/-- The buffer `b` has been released. -/
structure Releases (p p' : Proc) (b : Buffer) : Prop where
  size : p'.buffer_size = p.buffer_size
  space : p'.free_async_space = if b.async_transaction
    then add32 p.free_async_space (add32 (payload b.data_size b.offsets_size) HEADER)
    else p.free_async_space
  used : ∃ xs ys, used p.buffers = xs ++ b :: ys ∧ used p'.buffers = xs ++ ys

variable {out : List (Nat × Nat)}

theorem Lists.of_buffers {bs : List Buffer} (hbs : p.buffers = bs)
    (hfirst : next_start bs p.stop = p.buffer) (hsome : bs ≠ []) (ht : Tiled p.stop bs)
    (hfree : ∃ fs, (frees p.stop bs).Perm (out ++ fs) ∧ HoldsFree p.free_buffers fs)
    (halloc : p.allocated_buffers.toList = Binder.allocs bs) : Lists p out := by
  subst hbs
  exact ⟨hfirst, hsome, ht, hfree, halloc⟩

theorem Placed.stop_dvd {k : Nat} (h : Placed p k) : 4096 ∣ p.stop := by
  unfold Proc.stop
  rw [h.buffer]
  exact Nat.dvd_add (Nat.dvd_mul_left 4096 k) h.size

section lists
variable {p : Proc} {k : Nat} {pre post : List Buffer} {b : Buffer} {out : List (Nat × Nat)}

section
variable (ht : Tiled p.stop (pre ++ b :: post)) (hbs : p.buffers = pre ++ b :: post)
include ht hbs

theorem is_free_split :
    is_free p b.addr = b.free := by
  have hat := at?_split ht.nodup
  unfold is_free
  rw [hbs, hat]
  rfl

theorem size_split :
    binder_buffer_size p b.addr = next_start post p.stop - (b.addr + HEADER) := by
  unfold binder_buffer_size
  rw [hbs, buffer_size_in_split ht]

end

/-- The buffers on the list of free ones are free. -/
theorem is_free_of_mem_frees (ht : Tiled p.stop p.buffers) {x : Nat × Nat}
    (hx : x ∈ frees p.stop p.buffers) : is_free p x.1 = true := by
  obtain ⟨pre, b, post, hbs, hfree, hb, _⟩ := exists_of_mem_frees hx
  rw [← hb, is_free_split (hbs ▸ ht) hbs]
  exact hfree

theorem map_fst_frees (stop : Nat) (bs : List Buffer) :
    (frees stop bs).map Prod.fst = (bs.filter Buffer.free).map Buffer.addr := by
  induction bs with
  | nil => rfl
  | cons b bs ih => ?_
  unfold frees
  cases hfree : b.free with
  | true => simp [hfree, ih]
  | false => simp [hfree, ih]

variable {stop a buffer_size data_size offsets_size size x : Nat} {t : Rbtree.Tree Nat}

variable {bs : List Buffer} {is_async : Bool} {stale : Buffer} {pages : Nat → Bool}

theorem frees_nodup (ht : Tiled stop bs) :
    ((frees stop bs).map Prod.fst).Nodup := by
  rw [map_fst_frees]
  exact ht.nodup.sublist (filter_sublist.map _)

/-- `binder_insert_free_buffer` of the buffer that is in no tree. -/
theorem insert_free_buffer_spec {s : Nat} (h : Lists p [(a, s)]) :
    ∃ t, binder_insert_free_buffer p a = some { p with free_buffers := t } ∧
      Lists { p with free_buffers := t } [] := by
  obtain ⟨fs, hperm, hholds⟩ := h.free
  have hmem : ∀ x, x = (a, s) ∨ x ∈ fs → x ∈ frees p.stop p.buffers := by
    intro x hx
    exact hperm.mem_iff.mpr (by simpa using hx)
  have hsize : ∀ x ∈ (a, s) :: fs, binder_buffer_size p x.1 = x.2 := by
    intro x hx
    exact size_of_mem_frees h.tiled (hmem x (by simpa using hx))
  have hs : binder_buffer_size p a = s := hsize (a, s) (by simp)
  unfold binder_insert_free_buffer
  simp only [hs]
  rw [if_pos]
  · refine ⟨_, rfl, ⟨h.first, h.some, h.tiled, ⟨(a, s) :: fs, hperm, ?_⟩, h.allocs⟩⟩
    exact hholds.insert (fun x hx => hsize x (by simp [hx])) a s
  rw [Bool.and_eq_true, all_eq_true]
  refine ⟨is_free_of_mem_frees h.tiled (hmem (a, s) (.inl rfl)), ?_⟩
  intro c hc
  -- `BUG_ON(!buffer->free)` at each buffer on the way down.
  obtain ⟨s', hs'⟩ := hholds.mem (mem_of_visited hc)
  exact is_free_of_mem_frees h.tiled (hmem (c, s') (.inr hs'))

theorem is_free_of_mem (ht : Tiled p.stop p.buffers) {c : Buffer} (hc : c ∈ p.buffers) :
    is_free p c.addr = c.free := by
  obtain ⟨pre, post, hbs⟩ := append_of_mem hc
  exact is_free_split (hbs ▸ ht) hbs

theorem mem_allocs :
    a ∈ allocs bs ↔ ∃ c ∈ bs, c.free = false ∧ c.addr = a := by
  simp [allocs, and_assoc]

/-! ## Allocating -/

/-- The search finds a free buffer that is large enough. -/
theorem best_fit_spec (size : Nat) (best : Option Nat) {l : List Nat}
    (hfree : ∀ c ∈ l, is_free p c = true) (hsub : ∀ c ∈ t.toList, c ∈ l)
    (hbest : ∀ a, best = some a → a ∈ l ∧ size < binder_buffer_size p a) :
    ∃ r, best_fit p size t best = some r ∧ ∀ a, r.1 = some a → a ∈ l ∧
      (r.2 = true → binder_buffer_size p a = size) ∧
      (r.2 = false → size < binder_buffer_size p a) := by
  induction t generalizing best with
  | leaf =>
    refine ⟨(best, false), rfl, ?_⟩
    intro a ha
    obtain ⟨h1, h2⟩ := hbest a ha
    exact ⟨h1, by simp, fun _ => h2⟩
  | node c left x right ihl ihr => ?_
  have hx : x ∈ l := hsub x (by simp)
  unfold best_fit
  rw [if_neg (by simp [hfree x hx])]
  split
  · rename_i hlt
    apply ihl (some x)
    · intro c hc
      exact hsub c (by simp [hc])
    intro a ha
    cases ha
    exact ⟨hx, hlt⟩
  split
  · apply ihr best
    · intro c hc
      exact hsub c (by simp [hc])
    exact hbest
  refine ⟨_, rfl, ?_⟩
  intro a ha
  cases ha
  exact ⟨hx, fun _ => by omega, by simp⟩

/-- `binder_insert_allocated_buffer` of a buffer that is not free any more. -/
theorem insert_allocated_buffer_spec (ht : Tiled p.stop (pre ++ b :: post))
    (hbs : p.buffers = pre ++ b :: post) (halloc : b.free = false)
    (htree : p.allocated_buffers.toList = allocs pre ++ allocs post) :
    ∃ t, binder_insert_allocated_buffer p b.addr = some { p with allocated_buffers := t } ∧
      t.toList = allocs (pre ++ b :: post) := by
  have hpair := ht.pairwise
  rw [pairwise_append, pairwise_cons] at hpair
  obtain ⟨_, ⟨hafter, _⟩, hbefore⟩ := hpair
  have hlt : ∀ x ∈ allocs pre, x < b.addr := by
    intro x hx
    obtain ⟨c, hc, _, rfl⟩ := mem_allocs.mp hx
    have := hbefore c hc b (by simp)
    unfold HEADER at this
    omega
  have hgt : ∀ x ∈ allocs post, b.addr < x := by
    intro x hx
    obtain ⟨c, hc, _, rfl⟩ := mem_allocs.mp hx
    have := hafter c hc
    unfold HEADER at this
    omega
  have hlist := insert_by_addr htree hlt hgt
  unfold binder_insert_allocated_buffer
  rw [if_pos]
  · refine ⟨_, rfl, ?_⟩
    rw [hlist, allocs_append]
    simp [allocs, halloc]
  rw [Bool.and_eq_true, all_eq_true]
  refine ⟨by rw [is_free_split ht hbs, halloc]; rfl, ?_⟩
  intro x hx
  have hx' := mem_of_visited hx
  rw [htree, mem_append] at hx'
  have hmem : ∃ c ∈ pre ++ b :: post, c.free = false ∧ c.addr = x := by
    rcases hx' with hx' | hx'
    all_goals
      obtain ⟨c, hc, hrest⟩ := mem_allocs.mp hx'
      exact ⟨c, by simp [hc], hrest⟩
  obtain ⟨c, hc, hcf, rfl⟩ := hmem
  rw [is_free_of_mem (hbs ▸ ht) (hbs ▸ hc), hcf]
  -- `BUG()` when the address is there already.
  have hne : c.addr ≠ b.addr := by
    rcases hx' with hx' | hx'
    · have := hlt _ hx'
      omega
    have := hgt _ hx'
    omega
  simpa using hne

/-- The header of a buffer that `binder_alloc_buf` returns. -/
def taken (b : Buffer) (data_size offsets_size : Nat) (is_async : Bool) : Buffer :=
  ⟨b.addr, false, is_async, data_size, offsets_size⟩

/-- The list of buffers after an allocation. -/
def taken_list (pre post : List Buffer) (b : Buffer) (size buffer_size data_size offsets_size : Nat)
    (is_async : Bool) (stale : Buffer) : List Buffer :=
  pre ++ taken b data_size offsets_size is_async ::
    if buffer_size ≠ size then { stale with addr := b.addr + HEADER + size, free := true } :: post
    else post

theorem used_cons_free (hfree : b.free = true) :
    used (pre ++ b :: post) = used pre ++ used post := by
  simp [used, hfree]

/-- Removing the erased buffer from the books. -/
theorem Lists.erase_free (h : Lists p []) (hbs : p.buffers = pre ++ b :: post)
    (hfree : b.free = true) :
    HoldsFree (rb_erase b.addr p.free_buffers) (frees b.addr pre ++ frees p.stop post) := by
  obtain ⟨fs, hperm, hholds⟩ := h.free
  have hfrees : frees p.stop p.buffers = frees b.addr pre ++
      (b.addr, next_start post p.stop - (b.addr + HEADER)) :: frees p.stop post := by
    rw [hbs, frees_append]
    simp [frees, hfree, next_start]
  have hnd := frees_nodup h.tiled
  rw [hfrees] at hnd hperm
  exact (hholds.perm hperm.symm).erase hnd

/-- `binder_alloc_buf` behind the allocation of pages: the buffer is taken as
a whole, or its rest becomes a free buffer. -/
theorem take_buffer_spec (h : Lists p []) (hroom : Roomy p.stop p.buffers) (hbs : p.buffers = pre ++ b :: post)
    (hfree : b.free = true) (is_async : Bool)
    (stale : Buffer) (hsize : size = payload data_size offsets_size) (hdvd : 4 ∣ size)
    (hcase : (buffer_size = size ∧ b.addr + HEADER + size ≤ next_start post p.stop) ∨
      (buffer_size ≠ size ∧ b.addr + HEADER + size + HEADER ≤ next_start post p.stop)) :
    ∃ p', take_buffer p b.addr size buffer_size data_size offsets_size is_async stale = some p' ∧
      Lists p' [] ∧ Roomy p'.stop p'.buffers ∧ p'.vma = p.vma ∧ p'.buffer = p.buffer ∧ p'.buffer_size = p.buffer_size ∧
      p'.pages = p.pages ∧ p'.buffers =
        taken_list pre post b size buffer_size data_size offsets_size is_async stale ∧
      p'.free_async_space =
        if is_async then sub32 p.free_async_space (add32 size HEADER) else p.free_async_space := by
  have ht := h.tiled
  rw [hbs] at ht
  obtain ⟨htpre, hdb, hroomb, htpost⟩ := tiled_append.mp ht
  rw [hbs] at hroom
  obtain ⟨hrpre, _, hrpost⟩ := roomy_append.mp hroom
  have herase := h.erase_free hbs hfree
  have halloc : p.allocated_buffers.toList = allocs pre ++ allocs post := by
    rw [h.allocs, hbs, allocs_append]
    simp [allocs, hfree]
  -- the buffer is marked and moves to the other tree
  let b₁ : Buffer := { b with free := false }
  let p₁ : Proc :=
    { p with free_buffers := rb_erase b.addr p.free_buffers, buffers := pre ++ b₁ :: post }
  have ht₁ : Tiled p₁.stop (pre ++ b₁ :: post) := tiled_append.mpr ⟨htpre, hdb, hroomb, htpost⟩
  obtain ⟨t, hins, htlist⟩ := insert_allocated_buffer_spec (p := p₁) ht₁ rfl rfl halloc
  have hmod : modify Buffer.addr b.addr (fun b => { b with free := false }) p.buffers =
      pre ++ b₁ :: post := by
    rw [hbs]
    exact modify_split ht.nodup _
  have hfirst : ∀ (c : Buffer) (bs : List Buffer), c.addr = b.addr →
      next_start (pre ++ c :: bs) p.stop = p.buffer := by
    intro c bs hc
    have := h.first
    rw [hbs, next_start_append] at this
    rw [next_start_append]
    simp only [next_start] at this ⊢
    rw [hc]
    exact this
  unfold take_buffer
  simp only [hmod, bind_eq_bind]
  rw [show b.addr = b₁.addr from rfl, hins, bind_some]
  let b₂ : Buffer := taken b data_size offsets_size is_async
  have hset : ∀ rest, Tiled p.stop (pre ++ b₁ :: rest) → modify Buffer.addr b₁.addr
      (fun c => { c with
        data_size := data_size, offsets_size := offsets_size, async_transaction := is_async })
      (pre ++ b₁ :: rest) = pre ++ b₂ :: rest :=
    fun _ ht => modify_split ht.nodup _
  rcases hcase with ⟨heq, hfits⟩ | ⟨hne, hfits⟩
  · -- taken as a whole
    rw [if_neg (by simpa using heq), bind_some]
    have hlist : taken_list pre post b size buffer_size data_size offsets_size is_async stale =
        pre ++ b₂ :: post := by
      unfold taken_list
      rw [if_neg (by simpa using heq)]
    have hset := hset post ht₁
    refine ⟨_, rfl, ?_, ?_, rfl, rfl, rfl, rfl, hset.trans hlist.symm, rfl⟩
    · refine Lists.of_buffers hset (hfirst b₂ post rfl) (by simp) ?_ ?_ ?_
      · exact tiled_append.mpr ⟨htpre, hdb, hroomb, htpost⟩
      · refine ⟨_, ?_, herase⟩
        rw [frees_append]
        exact List.Perm.refl _
      rw [show (allocs (pre ++ b₂ :: post)) = allocs (pre ++ b₁ :: post) by
        rw [allocs_append, allocs_append]; rfl]
      exact htlist
    rw [hset]
    refine roomy_append.mpr ⟨hrpre, ?_, hrpost⟩
    intro _
    show payload data_size offsets_size ≤ next_start post p.stop - (b.addr + HEADER)
    omega
  -- the rest becomes a free buffer
  let nb : Buffer := { stale with addr := b.addr + HEADER + size, free := true }
  have hlist : taken_list pre post b size buffer_size data_size offsets_size is_async stale =
      pre ++ b₂ :: nb :: post := by
    unfold taken_list
    rw [if_pos hne]
  have htail : Tiled p.stop (nb :: post) :=
    ⟨Nat.dvd_add (Nat.dvd_add hdb (by unfold HEADER; omega)) hdvd, hfits, htpost⟩
  have hgap : b.addr + HEADER ≤ nb.addr := Nat.le_add_right _ _
  have ht₂ : Tiled p.stop (pre ++ b₁ :: nb :: post) := tiled_append.mpr ⟨htpre, hdb, hgap, htail⟩
  have hfrees : frees p.stop (pre ++ b₁ :: nb :: post) = frees b.addr pre ++
      (nb.addr, next_start post p.stop - (nb.addr + HEADER)) :: frees p.stop post := by
    rw [frees_append]
    rfl
  let p₂ : Proc := { p₁ with allocated_buffers := t, buffers := pre ++ b₁ :: nb :: post }
  have hlists₂ : Lists p₂ [(nb.addr, next_start post p.stop - (nb.addr + HEADER))] := by
    refine ⟨hfirst b₁ _ rfl, by simp [p₂], ht₂, ⟨_, ?_, herase⟩, ?_⟩
    · show (frees p.stop _).Perm _
      rw [hfrees]
      exact perm_middle
    rw [htlist, allocs_append, allocs_append]
    rfl
  obtain ⟨t₂, hins₂, hlists₃⟩ := insert_free_buffer_spec hlists₂
  rw [if_pos hne, insert_after_split ht₁ nb, hins₂, bind_some]
  have hset := hset (nb :: post) ht₂
  have hsame : frees p.stop (pre ++ b₂ :: nb :: post) = frees p.stop p₂.buffers := by
    rw [hfrees, frees_append]
    rfl
  refine ⟨_, rfl, ?_, ?_, rfl, rfl, rfl, rfl, hset.trans hlist.symm, rfl⟩
  · refine Lists.of_buffers hset (hfirst b₂ _ rfl) (by simp) ?_ ?_ ?_
    · exact tiled_append.mpr ⟨htpre, hdb, hgap, htail⟩
    · show ∃ fs, (frees p.stop (pre ++ b₂ :: nb :: post)).Perm ([] ++ fs) ∧ HoldsFree t₂ fs
      rw [hsame]
      exact hlists₃.free
    rw [htlist, allocs_append, allocs_append]
    rfl
  rw [hset]
  refine roomy_append.mpr ⟨hrpre, ?_, ?_, hrpost⟩
  · intro _
    show payload data_size offsets_size ≤ b.addr + HEADER + size - (b.addr + HEADER)
    omega
  intro hnb
  cases hnb

/-- **The invariant** of a mapping that starts at page number `k`. -/
structure ProcOk (p : Proc) (k : Nat) : Prop where
  placed : Placed p k
  lists : Lists p []
  room : Roomy p.stop p.buffers
  pages : PagesOk p k
  merged : Merged p.buffers

theorem merged_append_cons : Merged (pre ++ b :: post) ↔ Merged pre ∧ Merged post ∧
    (∀ x ∈ pre.getLast?, ¬ (x.free = true ∧ b.free = true)) ∧
    (∀ y ∈ post.head?, ¬ (b.free = true ∧ y.free = true)) := by
  unfold Merged
  rw [isChain_append, isChain_cons]
  simp only [List.head?_cons, mem_def, some.injEq, forall_eq']
  tauto

theorem payload_dvd (data_size offsets_size : Nat) : 4 ∣ payload data_size offsets_size := by
  unfold payload ALIGN add32
  omega

/-- The list after an allocation needs what the buffer needed before, and
what was taken up to `x`. -/
theorem resident_taken_list {j : Nat}
    (hx : (buffer_size = size ∧ x = next_start post stop) ∨
      (buffer_size ≠ size ∧ x = b.addr + HEADER + size + HEADER)) :
    Resident stop
      (taken_list pre post b size buffer_size data_size offsets_size is_async stale) j ↔
    Resident b.addr pre j ∨ (b.addr < (j + 1) * 4096 ∧ j * 4096 < x) ∨ Resident stop post j := by
  unfold taken_list
  rcases hx with ⟨heq, rfl⟩ | ⟨hne, rfl⟩
  · rw [if_neg (by simpa using heq), resident_cons_append]
    rfl
  rw [if_pos hne, resident_cons_append]
  simp only [taken, next_start, Resident, PAGE_SIZE, Bool.false_eq_true, if_false, if_true]
  constructor
  · intro hr
    rcases hr with hr | hr | hr | hr
    · exact .inl hr
    · exact .inr (.inl ⟨hr.1, by omega⟩)
    · exact .inr (.inl ⟨by omega, hr.2⟩)
    · exact .inr (.inr hr)
  intro hr
  rcases hr with hr | hr | hr
  · exact .inl hr
  · by_cases hlt : j * 4096 < b.addr + HEADER + size
    · exact .inr (.inl ⟨hr.1, hlt⟩)
    · exact .inr (.inr (.inl ⟨by omega, hr.2⟩))
  · exact .inr (.inr (.inr hr))

theorem merged_taken_list (h : Merged (pre ++ b :: post)) (hfree : b.free = true) :
    Merged (taken_list pre post b size buffer_size data_size offsets_size is_async stale) := by
  obtain ⟨h1, h2, _, h4⟩ := merged_append_cons.mp h
  unfold taken_list
  split
  · rw [merged_append_cons]
    refine ⟨h1, ?_, by simp [taken], by simp [taken]⟩
    unfold Merged
    rw [isChain_cons]
    refine ⟨?_, h2⟩
    intro y hy hcon
    exact h4 y hy ⟨hfree, hcon.2⟩
  rw [merged_append_cons]
  exact ⟨h1, h2, by simp [taken], by simp [taken]⟩

/-- The buffer that the search returns, in the list. -/
theorem Lists.exists_free (h : Lists p []) (ha : a ∈ p.free_buffers.toList) :
    ∃ pre b post, p.buffers = pre ++ b :: post ∧ b.free = true ∧ b.addr = a := by
  obtain ⟨fs, hperm, hholds⟩ := h.free
  obtain ⟨s, hs⟩ := hholds.mem ha
  obtain ⟨pre, b, post, hbs, hfree, hb, _⟩ :=
    exists_of_mem_frees (hperm.mem_iff.mpr (by simpa using hs))
  exact ⟨pre, b, post, hbs, hfree, hb⟩

/-- What the last part of `binder_alloc_buf` does with the buffer it has
found: with a failure nothing, and else the buffer is taken. -/
theorem ProcOk.take (h : ProcOk p k) (hbs : p.buffers = pre ++ b :: post) (hfree : b.free = true)
    (is_async : Bool) (stale : Buffer) (vma : Bool) (fault : Nat → Option Fault) (hsize : size = payload data_size offsets_size)
    (hcase : (buffer_size = size ∧ b.addr + HEADER + size ≤ next_start post p.stop ∧
        x = next_start post p.stop) ∨
      (buffer_size ≠ size ∧ b.addr + HEADER + size + HEADER ≤ next_start post p.stop ∧
        x = b.addr + HEADER + size + HEADER))
    (hstop : stop = min ((x + 4095) / 4096 * 4096) (next_start post p.stop / 4096 * 4096)) :
    binder_update_page_range p true (PAGE_ALIGN (b.addr + HEADER)) stop vma fault =
      some (p, false) ∨
    ∃ p₁ p', binder_update_page_range p true (PAGE_ALIGN (b.addr + HEADER)) stop vma fault =
        some (p₁, true) ∧
      take_buffer p₁ b.addr size buffer_size data_size offsets_size is_async stale = some p' ∧
      ProcOk p' k ∧ p'.buffer_size = p.buffer_size ∧ p'.buffers =
        taken_list pre post b size buffer_size data_size offsets_size is_async stale ∧
      p'.free_async_space =
        if is_async then sub32 p.free_async_space (add32 size HEADER) else p.free_async_space := by
  have ht := h.lists.tiled
  rw [hbs] at ht
  obtain ⟨htpre, hdb, hroomb, htpost⟩ := tiled_append.mp ht
  have hle := htpost.start_le
  have hguard := h.placed.guard
  have hstart := PAGE_ALIGN_eq (b.addr + HEADER) (by omega)
  have hfirst : p.buffer ≤ b.addr := by
    have := (h.lists.tiled.mem (b := b) (by rw [hbs]; simp)).1
    rw [h.lists.first] at this
    exact this
  rw [hstart]
  have hxs : x ≤ next_start post p.stop ∧ b.addr + HEADER ≤ x := by omega
  have hrange := update_page_range_alloc ((b.addr + HEADER + 4095) / 4096 * 4096) stop vma fault
    h.placed.buffer
    (Nat.dvd_mul_left 4096 _) (by rw [hstop]; omega) (by omega) (by
      intro i h1 h2
      -- `BUG_ON(*page)`: none of the pages is there yet.
      have hnot := not_resident_inner ht hfree h1 (by omega)
      rw [← hbs, ← h.pages i] at hnot
      simpa using hnot)
  rcases hrange with ⟨pages', heq, hpages⟩ | heq
  · right
    let p₁ : Proc := { p with pages := pages' }
    have hlists₁ : Lists p₁ [] :=
      ⟨h.lists.first, h.lists.some, h.lists.tiled, h.lists.free, h.lists.allocs⟩
    have hcase₁ : (buffer_size = size ∧ b.addr + HEADER + size ≤ next_start post p₁.stop) ∨
        (buffer_size ≠ size ∧ b.addr + HEADER + size + HEADER ≤ next_start post p₁.stop) :=
      hcase.imp (fun hc => ⟨hc.1, hc.2.1⟩) (fun hc => ⟨hc.1, hc.2.1⟩)
    obtain ⟨p', htake, hlists', hroom', _, hbuffer, hbsize, hpg, hbuffers, hspace⟩ :=
      take_buffer_spec hlists₁ h.room hbs hfree is_async stale hsize
        (hsize ▸ payload_dvd _ _) hcase₁
    have hstop' : p'.stop = p.stop := by
      unfold Proc.stop
      rw [hbuffer, hbsize]
    refine ⟨p₁, p', heq, htake, ⟨?_, hlists', hroom', ?_, ?_⟩, hbsize, hbuffers, hspace⟩
    · exact ⟨hbuffer.trans h.placed.buffer, hbsize ▸ h.placed.size, hstop' ▸ h.placed.guard⟩
    · intro i
      rw [hpg, hbuffers, hstop']
      rw [hpages i, h.pages i, hbs, resident_taken_list (hcase.imp (fun hc => ⟨hc.1, hc.2.2⟩)
        (fun hc => ⟨hc.1, hc.2.2⟩)), hstop]
      exact resident_take ht hfree h.placed.stop_dvd hxs.2 hxs.1 (k + i)
    rw [hbuffers]
    exact merged_taken_list (hbs ▸ h.merged) hfree
  exact .inl heq

/-- **Allocation.** `binder_alloc_buf` runs into no `BUG_ON`; the invariant
is kept, and nothing has changed if it returns `NULL`. -/
theorem ProcOk.alloc_buf (h : ProcOk p k) (data_size offsets_size : Nat) (is_async : Bool)
    (env : Env) : ∃ p' r, binder_alloc_buf p data_size offsets_size is_async env = some (p', r) ∧
      ProcOk p' k ∧ (r = none → p' = p) ∧
      ∀ a, r = some a → Allocates p p' a data_size offsets_size is_async := by
  have hnull : ∃ p' r, some (p, (none : Option Nat)) = some (p', r) ∧ ProcOk p' k ∧
      (r = none → p' = p) ∧ ∀ a, r = some a → Allocates p p' a data_size offsets_size is_async :=
    ⟨p, none, rfl, h, fun _ => rfl, fun _ hcon => by cases hcon⟩
  unfold binder_alloc_buf
  simp only
  split
  · exact hnull
  split
  · exact hnull
  split
  · exact hnull
  rename_i hvma hwrap hasync
  generalize hsize : payload data_size offsets_size = size at *
  obtain ⟨⟨best, is_exact⟩, hr, hfit⟩ := best_fit_spec (p := p) (t := p.free_buffers)
    (l := p.free_buffers.toList) size none (by
      intro c hc
      obtain ⟨pre, b, post, hbs, hfree, rfl⟩ := h.lists.exists_free hc
      rw [is_free_split (hbs ▸ h.lists.tiled) hbs]
      exact hfree) (fun _ hc => hc) (by simp)
  rw [hr]
  cases best with
  | none => exact hnull
  | some a => ?_
  obtain ⟨hmem, hexact, hlarger⟩ := hfit a rfl
  obtain ⟨pre, b, post, hbs, hfree, rfl⟩ := h.lists.exists_free hmem
  have ht := h.lists.tiled
  rw [hbs] at ht
  obtain ⟨_, _, hroomb, htpost⟩ := tiled_append.mp ht
  have hle := htpost.start_le
  have hguard := h.placed.guard
  have hfull := size_split ht hbs
  simp only [hfull] at hexact hlarger ⊢
  obtain ⟨full, hS⟩ : ∃ full, next_start post p.stop = b.addr + HEADER + full :=
    ⟨next_start post p.stop - (b.addr + HEADER), by omega⟩
  simp only [hS, Nat.add_sub_cancel_left] at hexact hlarger ⊢
  -- `buffer_size` is set again to what the pages are needed for.
  generalize hbsz : (if is_exact = true then full
    else if add32 (add32 size HEADER) 4 ≥ full then size else add32 size HEADER) = bsz
  -- taken as a whole, up to a rest that is too small, or split
  obtain ⟨x, hx, hcase⟩ : ∃ x, (x = b.addr + HEADER + bsz ∧ bsz ≤ full ∨
      x = b.addr + HEADER + full ∧ bsz ≤ full ∧ full ≤ bsz + HEADER + 4) ∧
      ((bsz = size ∧ b.addr + HEADER + size ≤ b.addr + HEADER + full ∧
          x = b.addr + HEADER + full) ∨
        (bsz ≠ size ∧ b.addr + HEADER + size + HEADER ≤ b.addr + HEADER + full ∧
          x = b.addr + HEADER + size + HEADER)) := by
    unfold HEADER at *
    cases is_exact with
    | true =>
      have hsame := hexact rfl
      rw [if_pos rfl] at hbsz
      exact ⟨_, .inl ⟨by omega, by omega⟩, .inl ⟨by omega, by omega, rfl⟩⟩
    | false => ?_
    have hlt := hlarger rfl
    rw [if_neg (by simp), add32_eq (a := size) (by omega), add32_eq (by omega)] at hbsz
    split at hbsz
    · exact ⟨_, .inr ⟨rfl, by omega, by omega⟩, .inl ⟨hbsz.symm, by omega, rfl⟩⟩
    · exact ⟨_, .inl ⟨by omega, by omega⟩, .inr ⟨by omega, by omega, rfl⟩⟩
  -- Where the pages that are added end.
  have hend : min (PAGE_ALIGN (b.addr + HEADER + bsz)) (page_start (b.addr + HEADER + full)) =
      min ((x + 4095) / 4096 * 4096) ((b.addr + HEADER + full) / 4096 * 4096) := by
    unfold HEADER at *
    rw [PAGE_ALIGN_eq _ (by omega)]
    unfold page_start PAGE_SIZE
    omega
  rw [hend]
  have htake := h.take hbs hfree is_async env.stale (env.mm && p.vma) env.fault
    hsize.symm (hS ▸ hcase) rfl
  rw [hS] at htake
  -- Without pages `NULL` is returned before the trees are touched.
  rcases htake with heq | ⟨p₁, p', heq, htake, hok, hbsize, hbuffers, hspace⟩
  · rw [heq]
    exact hnull
  rw [heq]
  simp only [htake, map_some]
  refine ⟨p', some b.addr, rfl, hok, fun hcon => (by cases hcon), ?_⟩
  rintro _ ⟨⟩
  have hheader : add32 size HEADER = size + HEADER := add32_eq (by omega)
  rw [hheader] at hasync hspace
  subst hsize
  exact ⟨by omega, fun his => Nat.le_of_not_lt fun hlt => hasync ⟨his, hlt⟩, hbsize,
    hspace, used pre, used post, by rw [hbs, used_cons_free hfree],
    by
      rw [hbuffers]
      unfold taken_list
      split <;> simp [used, taken]⟩

/-! ## Freeing -/

theorem page_start_eq_iff (x y : Nat) : page_start x = page_start y ↔ x / 4096 = y / 4096 := by
  unfold page_start PAGE_SIZE
  omega

/-- The next buffer starts in the last page of a header. -/
theorem shares_end_eq (ht : Tiled p.stop (b :: post)) (hstop : 4096 ∣ p.stop) (x : Nat)
    (hx : x / 4096 = b.addr / 4096 ∨ x / 4096 = (b.addr + HEADER - 1) / 4096) :
    post.head?.any (fun c => decide (c.addr / 4096 = x / 4096)) =
      decide (next_start post p.stop / 4096 = x / 4096) := by
  have hroom := ht.2.1
  unfold HEADER at *
  rw [Bool.eq_iff_iff, decide_eq_true_eq]
  cases post with
  | nil =>
    obtain ⟨c, hc⟩ := hstop
    simp only [next_start] at hroom
    constructor
    · intro hany
      cases hany
    intro heq
    simp only [next_start] at heq
    omega
  | cons c post =>
    simp only [List.head?_cons, any_some, decide_eq_true_eq]
    rfl

variable {a : Buffer}

/-- `binder_delete_free_buffer` drops a free buffer behind a free one, with
the pages that only its header needs. -/
theorem delete_free_buffer_spec (hplaced : Placed p k)
    (hfirst : next_start p.buffers p.stop = p.buffer) (ht : Tiled p.stop (pre ++ a :: b :: post))
    (hbs : p.buffers = pre ++ a :: b :: post) (ha : a.free = true) (hb : b.free = true)
    (hpages : PagesOk p k) :
    ∃ pages', binder_delete_free_buffer p b.addr =
        some { p with buffers := pre ++ a :: post, pages := pages' } ∧
      ∀ i, pages' i = true ↔ Resident p.stop (pre ++ a :: post) (k + i) := by
  have htb : Tiled p.stop (b :: post) := (tiled_append.mp ht).2.2.2
  have ht' : Tiled p.stop ((pre ++ [a]) ++ b :: post) := by simpa using ht
  have hprev : prev_of b.addr p.buffers = some a := hbs ▸ prev_of_split ht
  have hnext : next_of b.addr p.buffers = post.head? := by
    rw [hbs]
    have := next_of_split ht'
    simpa using this
  have hdrop : free Buffer.addr b.addr p.buffers = pre ++ a :: post := by
    rw [hbs]
    have := free_split ht'.nodup
    simpa using this
  have hbase : p.buffer ≤ b.addr := by
    have := (Tiled.mem (hbs ▸ ht) (b := b) (by rw [hbs]; simp)).1
    rw [hfirst] at this
    exact this
  have hstop := hplaced.stop_dvd
  -- The last buffer has no next one; the end of the mapping stands for it, which is
  -- no page of a header.
  have hend := shares_end_eq htb hstop (b.addr + HEADER - 1) (.inr rfl)
  have hstart := shares_end_eq htb hstop b.addr (.inl rfl)
  have hdel := resident_delete ht ha hb hstop
  have hthere := fun j => resident_of_deleted (j := j) ht hb
  unfold binder_delete_free_buffer
  rw [hprev]
  simp only [ha, hnext, hdrop, buffer_end_page, buffer_start_page, page_start_eq_iff, hend, hstart,
    Bool.not_true, Bool.false_eq_true, if_false]
  generalize hs : b.addr / 4096 = s at *
  generalize htp : (b.addr + HEADER - 1) / 4096 = t at *
  generalize (a.addr + HEADER - 1) / 4096 = prev at *
  generalize next_start post p.stop / 4096 = next at *
  change ∃ pages', (if (delete_start s t prev next || delete_end s t prev next) = true then
      free_page_range { p with buffers := pre ++ a :: post }
        (if delete_start s t prev next = true then page_start b.addr
          else page_start (b.addr + HEADER - 1))
        ((if delete_end s t prev next = true then page_start (b.addr + HEADER - 1)
          else page_start b.addr) + PAGE_SIZE)
    else some { p with buffers := pre ++ a :: post }) = _ ∧ _
  have hps : page_start b.addr = s * 4096 := by
    rw [← hs]
    rfl
  have hpt : page_start (b.addr + HEADER - 1) = t * 4096 := by
    rw [← htp]
    rfl
  rw [hps, hpt]
  by_cases hany : (delete_start s t prev next || delete_end s t prev next) = true
  · rw [if_pos hany]
    have hrange : ∀ i, ((if delete_start s t prev next = true then s * 4096 else t * 4096) ≤
        (k + i) * 4096 ∧ (k + i) * 4096 <
        (if delete_end s t prev next = true then t * 4096 else s * 4096) + PAGE_SIZE) ↔
        Deleted s t prev next (k + i) := by
      intro i
      unfold Deleted PAGE_SIZE
      split <;> split <;> simp only [hany, true_and] <;> omega
    obtain ⟨pages', heq, hiff⟩ := free_page_range_spec (p := { p with buffers := pre ++ a :: post })
      (if delete_start s t prev next = true then s * 4096 else t * 4096)
      ((if delete_end s t prev next = true then t * 4096 else s * 4096) + PAGE_SIZE)
      hplaced.buffer (by split <;> exact Nat.dvd_mul_left _ _)
      (by unfold PAGE_SIZE; split <;> omega)
      (by
        have := hplaced.buffer
        show p.buffer ≤ _
        unfold HEADER at htp
        split <;> omega)
      (by
        intro i h1 h2
        exact (hpages i).mpr (hbs ▸ hthere (k + i) ((hrange i).mp ⟨h1, h2⟩)))
    refine ⟨pages', heq, ?_⟩
    intro i
    rw [hiff i, hrange i, ← hdel (k + i)]
    rw [hpages i, hbs]
  rw [if_neg hany]
  refine ⟨p.pages, rfl, ?_⟩
  intro i
  rw [← hdel (k + i), hpages i, hbs]
  have hnot : ¬ Deleted s t prev next (k + i) := fun hcon => hany hcon.1
  simp [hnot]

/-- A buffer `b` that has become free and is in no tree yet. -/
structure Loose (p : Proc) (k : Nat) (pre : List Buffer) (b : Buffer) (post : List Buffer) : Prop where
  placed : Placed p k
  buffers : p.buffers = pre ++ b :: post
  free : b.free = true
  lists : Lists p [(b.addr, next_start post p.stop - (b.addr + HEADER))]
  room : Roomy p.stop p.buffers
  pages : PagesOk p k

theorem frees_pair (ha : a.free = true) (hb : b.free = true) :
    frees stop (pre ++ a :: b :: post) = frees a.addr pre ++ (a.addr, b.addr - (a.addr + HEADER)) ::
      (b.addr, next_start post stop - (b.addr + HEADER)) :: frees stop post := by
  rw [frees_append]
  simp [frees, next_start, ha, hb]

/-- Of two neighbours one is in no tree; the other one is erased. -/
theorem HoldsFree.erase_neighbour {xs ys : List (Nat × Nat)} {u v w e : Nat × Nat}
    (h : HoldsFree t fs) (hperm : (xs ++ u :: v :: ys).Perm ([w] ++ fs))
    (hwe : (u = w ∧ v = e) ∨ (u = e ∧ v = w)) (hnd : ((xs ++ u :: v :: ys).map Prod.fst).Nodup) :
    HoldsFree (rb_erase e.1 t) (xs ++ ys) := by
  have hall : (xs ++ u :: v :: ys).Perm (w :: e :: (xs ++ ys)) := by
    have hmid : (xs ++ u :: v :: ys).Perm (u :: v :: (xs ++ ys)) :=
      perm_middle.trans (perm_middle.cons u)
    rcases hwe with ⟨rfl, rfl⟩ | ⟨rfl, rfl⟩
    · exact hmid
    · exact hmid.trans (List.Perm.swap _ _ _)
  have hfs : fs.Perm (e :: (xs ++ ys)) := (hperm.symm.trans hall).cons_inv
  have hnd' : ((e :: (xs ++ ys)).map Prod.fst).Nodup := by
    have := (hall.map Prod.fst).nodup_iff.mp hnd
    exact (nodup_cons.mp this).2
  have hholds : HoldsFree t ([] ++ (e.1, e.2) :: (xs ++ ys)) := h.perm hfs
  exact hholds.erase hnd'

theorem Loose.of_merge (hplaced : Placed p k) (hlists : Lists p out)
    (hroom : Roomy p.stop p.buffers) (hbs : p.buffers = pre ++ a :: b :: post) (ha : a.free = true)
    (hb : b.free = true) (ht : HoldsFree t (frees a.addr pre ++ frees p.stop post))
    (hpages : ∀ i, pages i = true ↔ Resident p.stop (pre ++ a :: post) (k + i)) :
    Loose { p with buffers := pre ++ a :: post, free_buffers := t, pages := pages } k pre a post := by
  have htiled := hlists.tiled
  rw [hbs] at htiled hroom
  obtain ⟨htpre, hda, hab, hdb, hroomb, htpost⟩ := tiled_append.mp htiled
  obtain ⟨hrpre, _, _, hrpost⟩ := roomy_append.mp hroom
  simp only [next_start] at hab
  refine ⟨⟨hplaced.buffer, hplaced.size, hplaced.guard⟩, rfl, ha, ?_, ?_, hpages⟩
  · refine Lists.of_buffers rfl ?_ (by simp) ?_ ⟨_, ?_, ht⟩ ?_
    · have := hlists.first
      rw [hbs, next_start_append] at this
      rw [next_start_append]
      exact this
    · refine tiled_append.mpr ⟨htpre, hda, ?_, htpost⟩
      show a.addr + HEADER ≤ next_start post p.stop
      omega
    · rw [frees_append]
      simp only [frees, ha, if_true, next_start]
      exact perm_middle
    rw [hlists.allocs, hbs, allocs_append, allocs_append]
    simp [allocs, ha, hb]
  refine roomy_append.mpr ⟨hrpre, ?_, hrpost⟩
  intro hcon
  rw [ha] at hcon
  cases hcon

theorem used_merge (hbs : p.buffers = pre ++ a :: b :: post) (hb : b.free = true) :
    used (pre ++ a :: post) = used p.buffers := by
  rw [hbs]
  simp [used, filter_cons, hb]

theorem Loose.merge_next (h : Loose p k pre b post) (hpost : Merged post) :
    ∃ p' post', Binder.merge_next p b.addr = some p' ∧ Loose p' k pre b post' ∧ Merged post' ∧
      (∀ y ∈ post'.head?, y.free = false) ∧ SameUse p p' := by
  have ht := h.lists.tiled
  rw [h.buffers] at ht
  have hnext : next_of b.addr p.buffers = post.head? := by
    rw [h.buffers]
    exact next_of_split ht
  unfold Binder.merge_next
  rw [hnext]
  cases post with
  | nil => exact ⟨p, [], rfl, h, hpost, by simp, rfl, rfl, rfl⟩
  | cons c post => ?_
  simp only [List.head?_cons]
  cases hc : c.free with
  | false =>
    refine ⟨p, c :: post, by simp, h, hpost, ?_, rfl, rfl, rfl⟩
    intro y hy
    cases hy
    exact hc
  | true => ?_
  obtain ⟨hhead, hrest⟩ := isChain_cons.mp hpost
  obtain ⟨fs, hperm, hholds⟩ := h.lists.free
  have hnd := frees_nodup h.lists.tiled
  rw [h.buffers, frees_pair h.free hc] at hperm hnd
  -- The next buffer leaves the tree; the one at work is in none.
  have hholds' := hholds.erase_neighbour hperm (.inl ⟨rfl, rfl⟩) hnd
  obtain ⟨pages', heq, hpages⟩ := delete_free_buffer_spec
    (p := { p with free_buffers := rb_erase c.addr p.free_buffers })
    ⟨h.placed.buffer, h.placed.size, h.placed.guard⟩ h.lists.first ht h.buffers h.free hc h.pages
  refine ⟨_, post, heq, ?_, hrest, ?_, rfl, rfl, ?_⟩
  · exact Loose.of_merge (p := p) h.placed h.lists h.room h.buffers h.free hc hholds' hpages
  · intro y hy
    have := hhead y hy
    simpa [hc] using this
  · exact used_merge h.buffers hc

/-- Into the tree, when there is nothing left to merge with. -/
theorem Loose.insert (h : Loose p k pre b post) (hmerged : Merged (pre ++ b :: post)) :
    ∃ p', binder_insert_free_buffer p b.addr = some p' ∧ ProcOk p' k ∧ SameUse p p' := by
  obtain ⟨t, heq, hlists⟩ := insert_free_buffer_spec h.lists
  refine ⟨_, heq, ⟨⟨h.placed.buffer, h.placed.size, h.placed.guard⟩, hlists, h.room, h.pages, ?_⟩,
    rfl, rfl, rfl⟩
  rw [h.buffers]
  exact hmerged

theorem Loose.merge_prev (h : Loose p k pre b post) (hpre : Merged pre) (hpost : Merged post)
    (hhead : ∀ y ∈ post.head?, y.free = false) :
    ∃ p', Binder.merge_prev p b.addr = some p' ∧ ProcOk p' k ∧ SameUse p p' := by
  have ht := h.lists.tiled
  rw [h.buffers] at ht
  have hbehind : ∀ c : Buffer, ∀ y ∈ post.head?, ¬ (c.free = true ∧ y.free = true) := by
    intro c y hy hcon
    rw [hhead y hy] at hcon
    exact Bool.false_ne_true hcon.2
  unfold Binder.merge_prev
  rw [h.buffers]
  rcases eq_nil_or_concat pre with rfl | ⟨pre, a, rfl⟩
  · have hprev : prev_of b.addr (b :: post) = none :=
      prev_of_none fun c hc => Ne.symm (Tiled.head_ne ht hc)
    simp only [nil_append, hprev]
    exact h.insert (merged_append_cons.mpr ⟨hpre, hpost, by simp, hbehind b⟩)
  have hbs : p.buffers = pre ++ a :: b :: post := by
    rw [h.buffers]
    simp
  have ht' : Tiled p.stop (pre ++ a :: b :: post) := by simpa using ht
  have hprev : prev_of b.addr (pre.concat a ++ b :: post) = some a := by
    simpa using prev_of_split ht'
  rw [hprev]
  cases ha : a.free with
  | false =>
    simp only [ha, Bool.false_eq_true, if_false]
    apply h.insert
    refine merged_append_cons.mpr ⟨hpre, hpost, ?_, hbehind b⟩
    intro x hx hcon
    have hxa : a = x := by simpa using hx
    rw [← hxa, ha] at hcon
    exact Bool.false_ne_true hcon.1
  | true => ?_
  simp only [ha, if_true, bind_eq_bind]
  obtain ⟨pages', heq, hpages⟩ :=
    delete_free_buffer_spec h.placed h.lists.first ht' hbs ha h.free h.pages
  rw [heq, bind_some]
  obtain ⟨fs, hperm, hholds⟩ := h.lists.free
  have hnd := frees_nodup h.lists.tiled
  rw [hbs, frees_pair ha h.free] at hperm hnd
  -- The previous buffer leaves the tree and takes the place of the one at work.
  have hholds' := hholds.erase_neighbour hperm (.inr ⟨rfl, rfl⟩) hnd
  have hloose := Loose.of_merge h.placed h.lists h.room hbs ha h.free hholds' hpages
  rw [concat_eq_append] at hpre
  obtain ⟨hpre', _, hlast, _⟩ := merged_append_cons.mp hpre
  -- Nothing free is left on either side.
  obtain ⟨p', hins, hok, hsame⟩ :=
    hloose.insert (merged_append_cons.mpr ⟨hpre', hpost, hlast, hbehind a⟩)
  exact ⟨p', hins, hok, hsame.size, hsame.space, hsame.used.trans (used_merge hbs h.free)⟩

/-- The buffer is marked as free and leaves its tree. -/
theorem ProcOk.release (h : ProcOk p k) (hbs : p.buffers = pre ++ b :: post) (hb : b.free = false)
    (space : Nat)
    (hpages : ∀ i, pages i = true ↔ p.pages i = true ∧
      ¬ ((b.addr + HEADER + 4095) / 4096 * 4096 ≤ (k + i) * 4096 ∧
        (k + i) * 4096 < next_start post p.stop / 4096 * 4096)) :
    Loose { p with
      free_async_space := space, pages := pages
      allocated_buffers := rb_erase b.addr p.allocated_buffers
      buffers := pre ++ { b with free := true } :: post } k pre { b with free := true } post := by
  have ht := h.lists.tiled
  have hroom := h.room
  have hallocs := h.lists.allocs
  rw [hbs] at ht hroom hallocs
  obtain ⟨hrpre, _, hrpost⟩ := roomy_append.mp hroom
  have htiled := tiled_append.mp ht
  refine ⟨⟨h.placed.buffer, h.placed.size, h.placed.guard⟩, rfl, rfl, ?_, ?_, ?_⟩
  · refine Lists.of_buffers rfl ?_ (by simp) (tiled_append.mpr htiled) ?_ ?_
    · have := h.lists.first
      rw [hbs, next_start_append] at this
      rw [next_start_append]
      exact this
    · obtain ⟨fs, hperm, hholds⟩ := h.lists.free
      refine ⟨fs, ?_, hholds⟩
      rw [hbs, frees_append] at hperm
      rw [frees_append]
      simp only [frees, hb, Bool.false_eq_true, if_false, if_true, next_start,
        nil_append] at hperm ⊢
      exact perm_middle.trans (hperm.cons _)
    have hsplit : allocs (pre ++ b :: post) = allocs pre ++ b.addr :: allocs post := by
      simp [allocs, hb]
    rw [hsplit] at hallocs
    have hnd : (allocs pre ++ b.addr :: allocs post).Nodup := by
      rw [← hsplit]
      exact ht.nodup.sublist (filter_sublist.map _)
    rw [erase_by_addr hallocs hnd, allocs_append]
    simp [allocs]
  · refine roomy_append.mpr ⟨hrpre, ?_, hrpost⟩
    intro hcon
    cases hcon
  intro i
  rw [hpages i, h.pages i, hbs, resident_release ht hb h.placed.stop_dvd, resident_cons_append]
  rfl

/-- **Freeing.** `binder_free_buf` of an allocated buffer runs into no
`BUG_ON` and frees no page twice; the invariant is kept. -/
theorem ProcOk.free_buf (h : ProcOk p k) {addr : Nat} (hallocated : is_allocated p addr = true) :
    ∃ p' b, binder_free_buf p addr = some p' ∧ ProcOk p' k ∧ Releases p p' b := by
  obtain ⟨b, hat, hb⟩ : ∃ b, at? Buffer.addr p.buffers addr = some b ∧ b.free = false := by
    unfold is_allocated at hallocated
    cases hat : at? Buffer.addr p.buffers addr with
    | none => simp [hat] at hallocated
    | some b => exact ⟨b, rfl, by simpa [hat] using hallocated⟩
  obtain ⟨hmem, rfl⟩ := mem_of_at? hat
  obtain ⟨pre, post, hbs⟩ := append_of_mem hmem
  have ht := h.lists.tiled
  rw [hbs] at ht
  obtain ⟨_, _, hroomb, htpost⟩ := tiled_append.mp ht
  have hle := htpost.start_le
  have hguard := h.placed.guard
  have hfits : payload b.data_size b.offsets_size ≤ next_start post p.stop - (b.addr + HEADER) := by
    have := h.room
    rw [hbs] at this
    exact (roomy_append.mp this).2.1 hb
  have hbase : p.buffer ≤ b.addr := by
    have := (h.lists.tiled.mem hmem).1
    rw [h.lists.first] at this
    exact this
  have hend : b.addr + HEADER + (next_start post p.stop - (b.addr + HEADER)) =
      next_start post p.stop := by omega
  unfold binder_free_buf
  rw [hat]
  simp only [size_split ht hbs, hend]
  rw [if_neg (by
    rw [hb]
    simp only [Bool.false_eq_true, false_or, not_or]
    exact ⟨by omega, by omega, by omega⟩)]
  simp only [bind_eq_bind]
  rw [PAGE_ALIGN_eq _ (by omega)]
  generalize hspace : (if b.async_transaction = true then _ else _ : Nat) = space
  obtain ⟨pages', heq, hpages⟩ := free_page_range_spec (p := { p with free_async_space := space })
    (k := k) ((b.addr + HEADER + 4095) / 4096 * 4096) (page_start (next_start post p.stop))
    h.placed.buffer (Nat.dvd_mul_left _ _) (Nat.dvd_mul_left _ _)
    (by show p.buffer ≤ _; omega)
    (by
      intro i h1 h2
      exact (h.pages i).mpr (hbs ▸ resident_inner hb h1 h2))
  rw [heq, bind_some]
  have hmod : modify Buffer.addr b.addr (fun c => { c with free := true }) p.buffers =
      pre ++ { b with free := true } :: post := by
    rw [hbs]
    exact modify_split ht.nodup _
  simp only [hmod]
  obtain ⟨hpre, hpost, _, _⟩ := merged_append_cons.mp (hbs ▸ h.merged)
  have hloose := h.release hbs hb space hpages
  -- First with the next one, then with the previous one.
  obtain ⟨p₃, post', hnext, hloose₃, hpost', hhead, hsame⟩ := hloose.merge_next hpost
  obtain ⟨p₄, hprev, hok, hsame'⟩ := hloose₃.merge_prev hpre hpost' hhead
  refine ⟨p₄, b, ?_, hok, hsame'.size.trans hsame.size,
    (hsame'.space.trans hsame.space).trans hspace.symm, used pre, used post, ?_,
    (hsame'.used.trans hsame.used).trans (used_cons_free rfl)⟩
  · rw [hnext, bind_some]
    exact hprev
  rw [hbs]
  simp [used, hb]

end lists

end Nubernel.Binder
