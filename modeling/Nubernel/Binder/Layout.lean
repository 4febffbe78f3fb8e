import Nubernel.Binder.Alloc

/-! # binder: the layout of a mapping

Facts about the list of buffers. Everything a buffer's place depends on
is where it starts and where the next one does, so the notions of this
module take the end of a part of the list as an argument and split along
appends (`tiled_append`, `frees_append`, `roomy_append`, `resident_append`).
-/

open Bool List

namespace Nubernel.Binder

/-! ## Tilings -/

/-- The buffers from the first one up to `stop`: aligned, and each with room
for its header. -/
def Tiled (stop : Nat) : List Buffer → Prop
  | [] => True
  | b :: bs => 4 ∣ b.addr ∧ b.addr + HEADER ≤ next_start bs stop ∧ Tiled stop bs

/-- The free buffers with their sizes. -/
def frees (stop : Nat) : List Buffer → List (Nat × Nat)
  | [] => []
  | b :: bs =>
    if b.free then (b.addr, next_start bs stop - (b.addr + HEADER)) :: frees stop bs
    else frees stop bs

/-- The addresses of the allocated buffers. -/
def allocs (bs : List Buffer) : List Nat := (bs.filter fun b => !b.free).map Buffer.addr

/-- What was asked for fits into the allocated buffers. -/
def Roomy (stop : Nat) : List Buffer → Prop
  | [] => True
  | b :: bs =>
    (b.free = false →
      payload b.data_size b.offsets_size ≤ next_start bs stop - (b.addr + HEADER)) ∧
    Roomy stop bs

/-- Page number `i` has a byte of a header or of an allocated buffer. -/
def Resident (stop : Nat) : List Buffer → Nat → Prop
  | [], _ => False
  | b :: bs, i =>
    (b.addr < (i + 1) * PAGE_SIZE ∧
      i * PAGE_SIZE < if b.free then b.addr + HEADER else next_start bs stop) ∨
    Resident stop bs i

section layout
variable {stop : Nat} {bs pre post : List Buffer} {b : Buffer}

theorem next_start_append (xs ys : List Buffer) (stop : Nat) :
    next_start (xs ++ ys) stop = next_start xs (next_start ys stop) := by
  cases xs with
  | nil => rfl
  | cons x xs => rfl

theorem tiled_append : Tiled stop (pre ++ post) ↔
    Tiled (next_start post stop) pre ∧ Tiled stop post := by
  induction pre with
  | nil => simp [Tiled]
  | cons b pre ih =>
    simp only [cons_append, Tiled, next_start_append, ih]
    tauto

theorem frees_append (pre post : List Buffer) (stop : Nat) :
    frees stop (pre ++ post) = frees (next_start post stop) pre ++ frees stop post := by
  induction pre with
  | nil => rfl
  | cons b pre ih =>
    simp only [cons_append, frees, next_start_append, ih]
    split <;> rfl

theorem roomy_append : Roomy stop (pre ++ post) ↔
    Roomy (next_start post stop) pre ∧ Roomy stop post := by
  induction pre with
  | nil => simp [Roomy]
  | cons b pre ih =>
    simp only [cons_append, Roomy, next_start_append, ih]
    tauto

theorem allocs_append (pre post : List Buffer) :
    allocs (pre ++ post) = allocs pre ++ allocs post := by
  simp [allocs]

variable {i : Nat} {x : Nat × Nat}

theorem resident_append : Resident stop (pre ++ post) i ↔
    Resident (next_start post stop) pre i ∨ Resident stop post i := by
  induction pre with
  | nil => simp [Resident]
  | cons b pre ih =>
    simp only [cons_append, Resident, next_start_append, ih]
    tauto

section
variable (h : Tiled stop bs)
include h

theorem Tiled.start_le : next_start bs stop ≤ stop := by
  induction bs with
  | nil => exact Nat.le_refl stop
  | cons b bs ih => ?_
  have hle := ih h.2.2
  have hb := h.2.1
  simp only [next_start] at *
  omega

theorem Tiled.mem (hb : b ∈ bs) :
    next_start bs stop ≤ b.addr ∧ b.addr + HEADER ≤ stop := by
  induction bs with
  | nil => cases hb
  | cons c bs ih => ?_
  have hle := h.2.2.start_le
  have hc := h.2.1
  rcases mem_cons.mp hb with rfl | hb
  · exact ⟨Nat.le_refl _, by omega⟩
  have := ih h.2.2 hb
  exact ⟨by simp only [next_start] at *; omega, this.2⟩

theorem Tiled.pairwise :
    bs.Pairwise fun a b => a.addr + HEADER ≤ b.addr := by
  induction bs with
  | nil => exact .nil
  | cons c bs ih => ?_
  refine pairwise_cons.mpr ⟨?_, ih h.2.2⟩
  intro b hb
  have := (h.2.2.mem hb).1
  have hc := h.2.1
  omega

theorem Tiled.nodup : (bs.map Buffer.addr).Nodup := by
  rw [List.Nodup, pairwise_map]
  apply h.pairwise.imp
  intro a b hab
  unfold HEADER at hab
  omega

end

theorem Tiled.head_ne {c : Buffer} (h : Tiled stop (c :: bs)) (hb : b ∈ bs) : c.addr ≠ b.addr := by
  have hp := rel_of_pairwise_cons h.pairwise hb
  unfold HEADER at hp
  omega

/-- The pages of a part of the list lie within it. -/
theorem Resident.bounds (h : Tiled stop bs) (hr : Resident stop bs i) :
    next_start bs stop < (i + 1) * PAGE_SIZE ∧ i * PAGE_SIZE < stop := by
  induction bs with
  | nil => cases hr
  | cons b bs ih => ?_
  have hb := h.2.1
  have hle := h.2.2.start_le
  rcases hr with ⟨h1, h2⟩ | hr
  · refine ⟨h1, ?_⟩
    split at h2 <;> omega
  have := ih h.2.2 hr
  refine ⟨?_, this.2⟩
  show b.addr < _
  omega

/-! ## Lookups -/

theorem buffer_size_in_split (h : Tiled stop (pre ++ b :: post)) :
    buffer_size_in stop (pre ++ b :: post) b.addr = next_start post stop - (b.addr + HEADER) := by
  induction pre with
  | nil => simp [buffer_size_in]
  | cons c pre ih =>
    have hne : c.addr ≠ b.addr := h.head_ne (by simp)
    simp only [cons_append, buffer_size_in, hne, if_false]
    exact ih h.2.2

theorem exists_of_mem_frees (hx : x ∈ frees stop bs) :
    ∃ pre b post, bs = pre ++ b :: post ∧ b.free = true ∧ b.addr = x.1 ∧
      x.2 = next_start post stop - (b.addr + HEADER) := by
  induction bs with
  | nil => cases hx
  | cons c bs ih => ?_
  have htail : x ∈ frees stop bs → ∃ pre b post, c :: bs = pre ++ b :: post ∧ b.free = true ∧
      b.addr = x.1 ∧ x.2 = next_start post stop - (b.addr + HEADER) := by
    intro hmem
    obtain ⟨pre, b, post, hbs, hrest⟩ := ih hmem
    exact ⟨c :: pre, b, post, by rw [hbs]; rfl, hrest⟩
  simp only [frees] at hx
  split at hx
  · rename_i hfree
    rcases mem_cons.mp hx with rfl | hx
    · exact ⟨[], c, bs, rfl, hfree, rfl, rfl⟩
    · exact htail hx
  exact htail hx

/-- The size that the code computes for a free buffer. -/
theorem size_of_mem_frees (h : Tiled stop bs) (hx : x ∈ frees stop bs) :
    buffer_size_in stop bs x.1 = x.2 := by
  obtain ⟨pre, b, post, rfl, _, hb, hsize⟩ := exists_of_mem_frees hx
  rw [← hb, buffer_size_in_split h, hsize]

theorem next_of_split (h : Tiled stop (pre ++ b :: post)) :
    next_of b.addr (pre ++ b :: post) = post.head? := by
  induction pre with
  | nil =>
    cases post with
    | nil => rfl
    | cons c post => simp [next_of]
  | cons c pre ih => ?_
  have hne : c.addr ≠ b.addr := h.head_ne (by simp)
  have ih' := ih h.2.2
  cases pre with
  | nil =>
    simp only [cons_append, nil_append, next_of, hne, if_false]
    exact ih'
  | cons d pre =>
    simp only [cons_append, next_of, hne, if_false]
    exact ih'

theorem prev_of_none {addr : Nat} (h : ∀ c ∈ bs.tail, c.addr ≠ addr) : prev_of addr bs = none := by
  induction bs with
  | nil => rfl
  | cons b bs ih => ?_
  cases bs with
  | nil => rfl
  | cons c bs =>
    have hc : c.addr ≠ addr := h c (by simp)
    simp only [prev_of, hc, if_false]
    exact ih fun d hd => h d (by exact mem_cons_of_mem c hd)

theorem prev_of_split {a : Buffer} (h : Tiled stop (pre ++ a :: b :: post)) :
    prev_of b.addr (pre ++ a :: b :: post) = some a := by
  induction pre with
  | nil => simp [prev_of]
  | cons c pre ih => ?_
  have ih' := ih h.2.2
  cases pre with
  | nil =>
    have hne : a.addr ≠ b.addr := h.2.2.head_ne (by simp)
    simp [prev_of, hne]
  | cons d pre =>
    have hne : d.addr ≠ b.addr := h.2.2.head_ne (by simp)
    simp only [cons_append, prev_of, hne, if_false]
    exact ih'

theorem insert_after_split (h : Tiled stop (pre ++ b :: post)) (c : Buffer) :
    insert_after b.addr c (pre ++ b :: post) = pre ++ b :: c :: post := by
  induction pre with
  | nil => simp [insert_after]
  | cons d pre ih =>
    have hne : d.addr ≠ b.addr := h.head_ne (by simp)
    simp only [cons_append, insert_after, hne, if_false]
    rw [ih h.2.2]

/-! ## Pages -/

/-- `n` pages from `first` on are made present or not. -/
def set_range (pages : Nat → Bool) (first n : Nat) (present : Bool) : Nat → Bool :=
  fun i => if first ≤ i ∧ i < first + n then present else pages i

theorem set_range_zero (pages : Nat → Bool) (first : Nat) (present : Bool) :
    set_range pages first 0 present = pages := by
  funext i
  simp [set_range]

theorem free_pages_spec (first n : Nat) (pages : Nat → Bool)
    (h : ∀ i, first ≤ i → i < first + n → pages i = true) :
    free_pages first n pages = some (set_range pages first n false) := by
  induction n generalizing pages with
  | zero => rw [free_pages, set_range_zero]
  | succ n ih => ?_
  -- The loop runs from the last page down to the first.
  have hlast : pages (first + n) = true := h (first + n) (by omega) (by omega)
  have hrest : ∀ i, first ≤ i → i < first + n →
      set_page pages (first + n) false i = true := by
    intro i h1 h2
    have hne : i ≠ first + n := by omega
    simp only [set_page, hne, if_false]
    exact h i h1 (by omega)
  rw [free_pages, if_pos hlast, ih _ hrest]
  congr 1
  funext i
  simp only [set_range, set_page]
  split
  · rw [if_pos (by omega)]
  split
  · rw [if_pos (by omega)]
  · rw [if_neg (by omega)]

/-- Allocating pages that are not there adds all of them, or after a failure
none. -/
theorem alloc_pages_spec (fault : Nat → Option Fault) (first done todo : Nat) (pages : Nat → Bool)
    (hdone : ∀ i, first ≤ i → i < first + done → pages i = true)
    (htodo : ∀ i, first + done ≤ i → i < first + done + todo → pages i = false) :
    alloc_pages fault first done todo pages =
        some (set_range pages (first + done) todo true, true) ∨
      alloc_pages fault first done todo pages = some (set_range pages first done false, false) := by
  induction todo generalizing done pages with
  | zero =>
    left
    rw [alloc_pages, set_range_zero]
  | succ todo ih => ?_
  have hnow : pages (first + done) = false := htodo (first + done) (by omega) (by omega)
  have hset : ∀ i, first ≤ i → i < first + (done + 1) →
      set_page pages (first + done) true i = true := by
    intro i h1 h2
    simp only [set_page]
    split
    · rfl
    · exact hdone i h1 (by omega)
  -- freeing the page that failed with those before it
  have hback : set_range (set_page pages (first + done) true) first (done + 1) false =
      set_range pages first done false := by
    funext i
    simp only [set_range, set_page]
    by_cases hi : i = first + done
    · rw [if_pos (by omega), if_neg (by omega), hi, hnow]
    by_cases hlt : first ≤ i ∧ i < first + done
    · rw [if_pos (by omega), if_pos hlt]
    · rw [if_neg (by omega), if_neg hi, if_neg hlt]
  unfold alloc_pages
  rw [if_neg (by simp [hnow])]
  cases fault (first + done) with
  | none =>
    have htodo' : ∀ i, first + (done + 1) ≤ i → i < first + (done + 1) + todo →
        set_page pages (first + done) true i = false := by
      intro i h1 h2
      have hne : i ≠ first + done := by omega
      simp only [set_page, hne, if_false]
      exact htodo i (by omega) (by omega)
    rcases ih _ _ hset htodo' with heq | heq
    · left
      simp only [heq]
      congr 2
      funext i
      simp only [set_range, set_page]
      by_cases hi : i = first + done
      · rw [if_neg (by omega), if_pos hi, if_pos (by omega)]
      by_cases hlt : first + (done + 1) ≤ i ∧ i < first + (done + 1) + todo
      · rw [if_pos hlt, if_pos (by omega)]
      · rw [if_neg hlt, if_neg hi, if_neg (by omega)]
    right
    simp [heq, hback]
  | some f => ?_
  right
  cases f with
  -- `err_alloc_page_failed` starts behind the page, the other two at it.
  | alloc_page =>
    simp only [free_pages_spec _ _ _ hdone]
    rfl
  | map_vm_area =>
    simp only [free_pages_spec _ _ _ hset, hback]
    rfl
  | vm_insert_page =>
    simp only [free_pages_spec _ _ _ hset, hback]
    rfl

theorem PAGE_ALIGN_eq (addr : Nat) (h : addr + 4095 < 2 ^ 32) :
    PAGE_ALIGN addr = (addr + 4095) / 4096 * 4096 := by
  unfold PAGE_ALIGN add32 PAGE_SIZE
  rw [Nat.mod_eq_of_lt h]

/-- The pages of a range, as indices and as addresses. -/
theorem range_iff {base k start stop : Nat} (hk : base = k * 4096) (hstart : 4096 ∣ start)
    (hstop : 4096 ∣ stop) (hbase : base ≤ start) :
    ((start - base) / PAGE_SIZE ≤ i ∧
      i < (start - base) / PAGE_SIZE + (stop - start) / PAGE_SIZE) ↔
    start ≤ (k + i) * 4096 ∧ (k + i) * 4096 < stop := by
  obtain ⟨a, rfl⟩ := hstart
  obtain ⟨c, rfl⟩ := hstop
  unfold PAGE_SIZE
  omega

section ranges
variable {p : Proc} {k : Nat} (start stop : Nat)

/-- What allocating a range of pages does, if none of them is there. -/
theorem update_page_range_alloc (vma : Bool) (fault : Nat → Option Fault)
    (hk : p.buffer = k * 4096) (hstart : 4096 ∣ start) (hstop : 4096 ∣ stop)
    (hbase : p.buffer ≤ start)
    (hfree : ∀ i, start ≤ (k + i) * 4096 → (k + i) * 4096 < stop → p.pages i = false) :
    (∃ pages', binder_update_page_range p true start stop vma fault =
        some ({ p with pages := pages' }, true) ∧
      ∀ i, pages' i = true ↔
        p.pages i = true ∨ (start ≤ (k + i) * 4096 ∧ (k + i) * 4096 < stop)) ∨
    binder_update_page_range p true start stop vma fault = some (p, false) := by
  have hrange := fun i => range_iff (i := i) hk hstart hstop hbase
  unfold binder_update_page_range
  by_cases hle : stop ≤ start
  · left
    rw [if_pos hle]
    refine ⟨p.pages, rfl, ?_⟩
    intro i
    have hnot : ¬ (start ≤ (k + i) * 4096 ∧ (k + i) * 4096 < stop) := by omega
    simp [hnot]
  rw [if_neg hle]
  cases vma with
  -- `vma` is `NULL` when the mapping was closed.
  | false => exact .inr rfl
  | true =>
    have hspec := alloc_pages_spec fault ((start - p.buffer) / PAGE_SIZE) 0
      ((stop - start) / PAGE_SIZE) p.pages (by omega) (by
        intro i h1 h2
        have hin := (hrange i).mp ⟨h1, h2⟩
        exact hfree i hin.1 hin.2)
    rcases hspec with heq | heq
    · left
      refine ⟨_, by rw [heq]; rfl, ?_⟩
      intro i
      simp only [set_range, Nat.add_zero, hrange i]
      by_cases hin : start ≤ (k + i) * 4096 ∧ (k + i) * 4096 < stop
      · simp [hin]
      simp [hin]
    right
    rw [heq, set_range_zero]
    rfl

/-- What freeing a range of pages does, if all of them are there. -/
theorem free_page_range_spec (hk : p.buffer = k * 4096) (hstart : 4096 ∣ start)
    (hstop : 4096 ∣ stop) (hbase : p.buffer ≤ start)
    (hpresent : ∀ i, start ≤ (k + i) * 4096 → (k + i) * 4096 < stop → p.pages i = true) :
    ∃ pages', free_page_range p start stop = some { p with pages := pages' } ∧
      ∀ i, pages' i = true ↔
        p.pages i = true ∧ ¬ (start ≤ (k + i) * 4096 ∧ (k + i) * 4096 < stop) := by
  have hrange := fun i => range_iff (i := i) hk hstart hstop hbase
  unfold free_page_range binder_update_page_range
  by_cases hle : stop ≤ start
  · rw [if_pos hle]
    refine ⟨p.pages, rfl, ?_⟩
    intro i
    have hnot : ¬ (start ≤ (k + i) * 4096 ∧ (k + i) * 4096 < stop) := by omega
    simp [hnot]
  rw [if_neg hle, free_pages_spec _ _ _ (by
    intro i h1 h2
    have hin := (hrange i).mp ⟨h1, h2⟩
    exact hpresent i hin.1 hin.2)]
  refine ⟨_, rfl, ?_⟩
  intro i
  simp only [set_range, hrange i]
  by_cases hin : start ≤ (k + i) * 4096 ∧ (k + i) * 4096 < stop
  · simp [hin]
  simp [hin]

end ranges

/-! ## Pages that buffers need -/

variable {j : Nat} {a : Buffer}

/-- The page into which a part of the list starts is one it needs, unless it
starts on a page boundary. -/
theorem resident_start (h : Tiled stop post) (hstop : 4096 ∣ stop)
    (h1 : j * 4096 < next_start post stop) (h2 : next_start post stop < (j + 1) * 4096) :
    Resident stop post j := by
  cases post with
  | nil =>
    obtain ⟨c, rfl⟩ := hstop
    simp only [next_start] at h1 h2
    omega
  | cons c post => ?_
  left
  simp only [next_start] at h1 h2
  refine ⟨h2, ?_⟩
  have := h.2.1
  show j * 4096 < _
  split
  · omega
  · omega

theorem resident_cons_append : Resident stop (pre ++ b :: post) j ↔
    Resident b.addr pre j ∨ (b.addr < (j + 1) * 4096 ∧
      j * 4096 < if b.free then b.addr + HEADER else next_start post stop) ∨
    Resident stop post j := by
  rw [resident_append]
  rfl

section
variable (h : Tiled stop (pre ++ b :: post))
include h

/-- No buffer needs the pages that lie within a free one. -/
theorem not_resident_inner (hfree : b.free = true)
    (h1 : (b.addr + HEADER + 4095) / 4096 * 4096 ≤ j * 4096)
    (h2 : j * 4096 < next_start post stop / 4096 * 4096) :
    ¬ Resident stop (pre ++ b :: post) j := by
  obtain ⟨hpre, hb⟩ := tiled_append.mp h
  rw [resident_cons_append, hfree]
  intro hr
  rcases hr with hr | ⟨_, hr⟩ | hr
  · have := (hr.bounds hpre).2
    simp only [next_start] at this
    unfold PAGE_SIZE at this
    omega
  · simp only [if_true] at hr
    omega
  have := (hr.bounds hb.2.2).1
  unfold PAGE_SIZE at this
  omega

/-- The pages to add when the first part of a free buffer, up to `x`, is
taken: those behind its header and before the next one. -/
theorem resident_take (hfree : b.free = true) (hstop : 4096 ∣ stop) {x : Nat}
    (hx : b.addr + HEADER ≤ x) (hx' : x ≤ next_start post stop) (j : Nat) :
    (Resident stop (pre ++ b :: post) j ∨ ((b.addr + HEADER + 4095) / 4096 * 4096 ≤ j * 4096 ∧
      j * 4096 < min ((x + 4095) / 4096 * 4096) (next_start post stop / 4096 * 4096))) ↔
    (Resident b.addr pre j ∨ (b.addr < (j + 1) * 4096 ∧ j * 4096 < x) ∨ Resident stop post j) := by
  obtain ⟨_, hb⟩ := tiled_append.mp h
  rw [resident_cons_append, hfree]
  simp only [if_true]
  constructor
  · intro hr
    rcases hr with (hr | ⟨h1, h2⟩ | hr) | ⟨h1, h2⟩
    · exact .inl hr
    · exact .inr (.inl ⟨h1, by omega⟩)
    · exact .inr (.inr hr)
    · exact .inr (.inl ⟨by omega, by omega⟩)
  intro hr
  rcases hr with hr | ⟨h1, h2⟩ | hr
  · exact .inl (.inl hr)
  -- The pages of the header are there, and so is the one in which the next buffer starts.
  · by_cases hhead : j * 4096 < b.addr + HEADER
    · exact .inl (.inr (.inl ⟨h1, hhead⟩))
    by_cases hnext : next_start post stop < (j + 1) * 4096
    · exact .inl (.inr (.inr (resident_start hb.2.2 hstop (by omega) hnext)))
    · exact .inr ⟨by omega, by omega⟩
  · exact .inl (.inr (.inr hr))

/-- The pages to drop when an allocated buffer becomes free. -/
theorem resident_release (halloc : b.free = false) (hstop : 4096 ∣ stop) (j : Nat) :
    (Resident stop (pre ++ b :: post) j ∧ ¬ ((b.addr + HEADER + 4095) / 4096 * 4096 ≤ j * 4096 ∧
      j * 4096 < next_start post stop / 4096 * 4096)) ↔
    (Resident b.addr pre j ∨ (b.addr < (j + 1) * 4096 ∧ j * 4096 < b.addr + HEADER) ∨
      Resident stop post j) := by
  obtain ⟨hpre, hb⟩ := tiled_append.mp h
  have hroom := hb.2.1
  rw [resident_cons_append, halloc]
  simp only [false_eq_true, if_false]
  constructor
  · intro hr
    obtain ⟨hr | ⟨h1, h2⟩ | hr, hout⟩ := hr
    · exact .inl hr
    -- The header keeps its pages, and the next buffer the one in which it starts.
    · by_cases hhead : j * 4096 < b.addr + HEADER
      · exact .inr (.inl ⟨h1, hhead⟩)
      by_cases hnext : next_start post stop < (j + 1) * 4096
      · exact .inr (.inr (resident_start hb.2.2 hstop h2 hnext))
      · exact absurd ⟨by omega, by omega⟩ hout
    · exact .inr (.inr hr)
  intro hr
  rcases hr with hr | ⟨h1, h2⟩ | hr
  · have := (hr.bounds hpre).2
    simp only [next_start] at this
    unfold PAGE_SIZE at this
    exact ⟨.inl hr, by omega⟩
  · exact ⟨.inr (.inl ⟨h1, by omega⟩), by omega⟩
  have := (hr.bounds hb.2.2).1
  unfold PAGE_SIZE at this
  exact ⟨.inr (.inr hr), by omega⟩

end

theorem resident_inner (halloc : b.free = false)
    (h1 : (b.addr + HEADER + 4095) / 4096 * 4096 ≤ j * 4096)
    (h2 : j * 4096 < next_start post stop / 4096 * 4096) :
    Resident stop (pre ++ b :: post) j := by
  rw [resident_cons_append, halloc]
  right; left
  simp only [false_eq_true, if_false]
  exact ⟨by omega, by omega⟩

/-- Whether `binder_delete_free_buffer` frees the first page of a header that
lies in the pages `s` to `t`, when the header before it ends in page
`prev` and the buffer behind it starts in page `next`. -/
def delete_start (s t prev next : Nat) : Bool :=
  !decide (prev = s) && !(decide (next = t) && decide (next = s))

/-- The same for the last page. -/
def delete_end (s t prev next : Nat) : Bool :=
  !(decide (prev = s) && decide (prev = t)) && !decide (next = t)

/-- Page `j` is freed with the header. -/
def Deleted (s t prev next j : Nat) : Prop :=
  (delete_start s t prev next || delete_end s t prev next) = true ∧
  (if delete_start s t prev next then s else t) ≤ j ∧
  j < (if delete_end s t prev next then t else s) + 1

/-- A page is freed unless one of the neighbours is in it. -/
theorem deleted_iff {s t prev next : Nat} (hst : s ≤ t) (hts : t ≤ s + 1) (hprev : prev ≤ s)
    (hnext : t ≤ next) :
    Deleted s t prev next j ↔ s ≤ j ∧ j ≤ t ∧ prev ≠ j ∧ next ≠ j := by
  -- A header is smaller than a page, so it lies in one page or in two.
  have hstart : delete_start s t prev next = true ↔ prev ≠ s ∧ next ≠ s := by
    simp only [delete_start, and_eq_true, not_eq_true', and_eq_false_iff, decide_eq_false_iff_not]
    omega
  have hend : delete_end s t prev next = true ↔ prev ≠ t ∧ next ≠ t := by
    simp only [delete_end, and_eq_true, not_eq_true', and_eq_false_iff, decide_eq_false_iff_not]
    omega
  unfold Deleted
  generalize delete_start s t prev next = ds at *
  generalize delete_end s t prev next = de at *
  cases ds with
  | true =>
    have hs := hstart.mp rfl
    cases de with
    | true =>
      have ht := hend.mp rfl
      simp
      omega
    | false =>
      have ht := mt hend.mpr (by simp)
      simp
      omega
  | false => ?_
  have hs := mt hstart.mpr (by simp)
  cases de with
  | true =>
    have ht := hend.mp rfl
    simp
    omega
  | false =>
    have ht := mt hend.mpr (by simp)
    simp
    omega

/-- The pages to drop with the header of a free buffer behind a free one. -/
theorem resident_delete (h : Tiled stop (pre ++ a :: b :: post)) (ha : a.free = true)
    (hb : b.free = true) (hstop : 4096 ∣ stop) (j : Nat) :
    (Resident stop (pre ++ a :: b :: post) j ∧
      ¬ Deleted (b.addr / 4096) ((b.addr + HEADER - 1) / 4096) ((a.addr + HEADER - 1) / 4096)
        (next_start post stop / 4096) j) ↔
    Resident stop (pre ++ a :: post) j := by
  obtain ⟨hpre, hrest⟩ := tiled_append.mp h
  obtain ⟨_, hab, _, hroom, hpost⟩ := hrest
  simp only [next_start] at hab hpre
  rw [resident_cons_append, resident_cons_append, ha]
  simp only [Resident, hb, if_true, PAGE_SIZE]
  -- `prev` is the last page of the header before, which may be the first page of this one.
  unfold HEADER at *
  rw [deleted_iff (by omega) (by omega) (by omega) (by omega)]
  constructor
  · intro hr
    obtain ⟨hr | hr | ⟨h1, h2⟩ | hr, hkeep⟩ := hr
    · exact .inl hr
    · exact .inr (.inl hr)
    · -- a page of the header stays because of a neighbour
      by_cases hprev : (a.addr + 40 - 1) / 4096 = j
      · exact .inr (.inl ⟨by omega, by omega⟩)
      right; right
      have hnext : next_start post stop / 4096 = j := by
        by_contra hne
        exact hkeep ⟨by omega, by omega, hprev, hne⟩
      cases post with
      | nil =>
        obtain ⟨c, rfl⟩ := hstop
        simp only [next_start] at hnext hroom
        omega
      | cons c post => ?_
      simp only [next_start] at hnext hroom
      have := hpost.2.1
      left
      refine ⟨by unfold PAGE_SIZE; omega, ?_⟩
      unfold PAGE_SIZE HEADER
      split
      · omega
      · omega
    · exact .inr (.inr hr)
  intro hr
  rcases hr with hr | hr | hr
  · have := (hr.bounds hpre).2
    unfold PAGE_SIZE at this
    exact ⟨.inl hr, by omega⟩
  · exact ⟨.inr (.inl hr), by omega⟩
  have := (hr.bounds hpost).1
  unfold PAGE_SIZE at this
  exact ⟨.inr (.inr (.inr hr)), by omega⟩

theorem resident_of_deleted (h : Tiled stop (pre ++ a :: b :: post)) (hb : b.free = true)
    (hj : Deleted (b.addr / 4096) ((b.addr + HEADER - 1) / 4096) ((a.addr + HEADER - 1) / 4096)
      (next_start post stop / 4096) j) :
    Resident stop (pre ++ a :: b :: post) j := by
  obtain ⟨_, hrest⟩ := tiled_append.mp h
  obtain ⟨_, hab, _, hroom, _⟩ := hrest
  simp only [next_start] at hab
  rw [resident_cons_append]
  simp only [Resident, hb, if_true, PAGE_SIZE]
  unfold HEADER at *
  rw [deleted_iff (by omega) (by omega) (by omega) (by omega)] at hj
  exact .inr (.inr (.inl ⟨by omega, by omega⟩))

end layout

end Nubernel.Binder
