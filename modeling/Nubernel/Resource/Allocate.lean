import Mathlib.Data.Nat.Find
import Nubernel.Resource.Request

/-! # resource: allocation

`allocate_resource` looks at the gaps between the children, one after another. Each
gap is cut to `[min, max]` and its beginning is aligned. The numbers wrap at two
places: `ALIGN` of a number near the end of the address space is 0, and so is the
address after a child that ends there.
-/

open List Nat

namespace Nubernel.Resource

/-! ## Alignment -/

section align
variable {x k : Nat}

/-- Without wrapping: the least multiple from `x` on. -/
theorem ALIGN_spec (hk : k < 32) (hx : x + 2 ^ k ≤ 2 ^ 32) :
    2 ^ k ∣ ALIGN x (2 ^ k) ∧ x ≤ ALIGN x (2 ^ k) ∧
      ∀ b, 2 ^ k ∣ b → x ≤ b → ALIGN x (2 ^ k) ≤ b := by
  have hpos : 0 < 2 ^ k := Nat.two_pow_pos k
  have heq : ALIGN x (2 ^ k) = (x + (2 ^ k - 1)) / 2 ^ k * 2 ^ k := by
    unfold ALIGN
    rw [add32_eq (by omega), and_align_mask (by omega) (by omega)]
  have hdiv := div_add_mod' (x + (2 ^ k - 1)) (2 ^ k)
  rw [heq]
  refine ⟨dvd_mul_left _ _, by omega, ?_⟩
  rintro b ⟨c, rfl⟩ hxb
  rw [mul_comm (2 ^ k) c]
  refine mul_le_mul_right _ ?_
  rw [← Nat.lt_succ_iff, Nat.div_lt_iff_lt_mul hpos, Nat.succ_mul, Nat.mul_comm c]
  omega

theorem ALIGN_wrapped (hk : k < 32) (hx : x < 2 ^ 32) (hwrap : 2 ^ 32 < x + 2 ^ k) :
    ALIGN x (2 ^ k) = 0 := by
  unfold ALIGN
  rw [and_align_mask (by omega) (add32_lt _ _)]
  have hsmall : add32 x (2 ^ k - 1) < 2 ^ k := by
    unfold add32
    omega
  rw [div_eq_of_lt hsmall, zero_mul]

/-- The next multiple is not above the end of the address space. -/
theorem add_le_of_dvd {c : Nat} (hk : k < 32) (hdvd : 2 ^ k ∣ c) (hc : c < 2 ^ 32) :
    c + 2 ^ k ≤ 2 ^ 32 :=
  le_of_lt_add_of_dvd (show c + 2 ^ k < 2 ^ 32 + 2 ^ k by omega)
    (Nat.dvd_add hdvd (Nat.dvd_refl _)) (Nat.pow_dvd_pow 2 (by omega))

end align

/-! ## What is asked for -/

/-- A block of `size` bytes that may be given out. -/
structure Feasible (root : Node) (size min max align start : Nat) : Prop where
  aligned : align ∣ start
  above : min ≤ start
  below : start + size - 1 ≤ max
  free : Requestable root start (start + size - 1)

/-- The lowest one. -/
def Lowest (root : Node) (size min max align start : Nat) : Prop :=
  Feasible root size min max align start ∧
    ∀ b, Feasible root size min max align b → start ≤ b

/-- The bytes that the walk looks for: two, where one is asked for. -/
def wanted (size : Nat) : Nat := if size = 1 then 2 else size

/-- The gaps along the children: where each begins, and what begins behind it. -/
def gaps (root_end start : Nat) : List Node → List (Nat × Nat)
  | [] => [(start, root_end + 1)]
  | this :: rest => (start, this.start) :: gaps root_end (this.end_ + 1) rest

/-- Where the aligning begins in a gap that begins with the word `start`. -/
def raised (min start : Nat) : Nat := if start < min then min else start

/-- In some gap `ALIGN` wraps to 0, and from there on the bytes are enough. -/
def Wraps (root : Node) (size min max align : Nat) : Prop :=
  wanted size ≤ max + 1 ∧ ∃ g ∈ gaps root.end_ root.start root.child, wanted size ≤ g.2 ∧
    2 ^ 32 < raised min (g.1 % 2 ^ 32) + align

/-- Where the walk comes to without a block that is long enough: to 0, or, behind a child
that ends with the address space, back to the least address that is asked for. -/
def Strays (root : Node) (size min max align start : Nat) : Prop :=
  (Wraps root size min max align ∧ start = 0) ∨
    (¬Wraps root size min max align ∧ start = ALIGN min align ∧
      start + wanted size ≤ max + 1 ∧
      ∃ g ∈ gaps root.end_ root.start root.child, g.1 = 2 ^ 32 ∧ start + wanted size ≤ g.2)

/-- The lowest block is found: it has the bytes that the walk looks for, or no block has
them and the walk strays to the lowest one, if there is one. -/
def Ordinary (root : Node) (size min max align : Nat) : Prop :=
  (∃ a, Lowest root size min max align a ∧ Feasible root (wanted size) min max align a) ∨
    ((∀ a, ¬Feasible root (wanted size) min max align a) ∧
      ∀ a, Lowest root size min max align a ↔
        Strays root size min max align a ∧ Requestable root a (a + size - 1))

theorem le_raised (min start : Nat) : min ≤ raised min start ∧ start ≤ raised min start := by
  unfold raised
  split <;> omega

theorem raised_le {min start c : Nat} (hmin : min ≤ c) (hstart : start ≤ c) :
    raised min start ≤ c := by
  unfold raised
  split <;> assumption

theorem raised_lt {min max : Nat} (hmin : min ≤ max) (hmax : max < 2 ^ 32) (start : Nat) :
    raised min (start % 2 ^ 32) < 2 ^ 32 := by
  unfold raised
  split
  · exact lt_of_le_of_lt hmin hmax
  · exact mod_lt _ (by decide)

@[simp] theorem raised_zero (min : Nat) : raised min (2 ^ 32 % 2 ^ 32) = min := by
  unfold raised
  split <;> omega

theorem le_wanted {size : Nat} (hsize : 1 ≤ size) : size ≤ wanted size ∧ 2 ≤ wanted size := by
  unfold wanted
  split <;> omega

section blocks
variable {root : Node} {size min max align a b : Nat}

theorem Feasible.mono {size' : Nat} (h : Feasible root size' min max align a)
    (hle : size ≤ size') : Feasible root size min max align a := by
  have hbelow := h.below
  obtain ⟨hstart, hend, hapart⟩ := h.free
  refine ⟨h.aligned, h.above, by omega, hstart, by omega, ?_⟩
  intro c hc
  have hap := hapart c hc
  omega

theorem Lowest.unique (ha : Lowest root size min max align a)
    (hb : Lowest root size min max align b) : a = b :=
  le_antisymm (ha.2 b hb.1) (hb.2 a ha.1)

theorem exists_lowest (h : Feasible root size min max align a) :
    ∃ b, Lowest root size min max align b := by
  classical
  have hex : ∃ b, Feasible root size min max align b := ⟨a, h⟩
  exact ⟨Nat.find hex, Nat.find_spec hex, fun b hb => Nat.find_min' hex hb⟩

theorem Strays.unique (ha : Strays root size min max align a)
    (hb : Strays root size min max align b) : a = b := by
  rcases ha with ⟨hw, rfl⟩ | ⟨hw, rfl, _⟩ <;> rcases hb with ⟨hw', rfl⟩ | ⟨hw', rfl, _⟩
  · rfl
  · exact absurd hw hw'
  · exact absurd hw' hw
  · rfl

end blocks

/-! ## The gaps of a root -/

/-- Children in their order, from `s` on and up to `last`. -/
structure Along (last s : Nat) (l : List Node) : Prop where
  nonempty : ∀ c ∈ l, c.start ≤ c.end_
  sorted : l.Pairwise fun a b => a.end_ < b.start
  low : ∀ c ∈ l, s ≤ c.start
  high : ∀ c ∈ l, c.end_ ≤ last

theorem Good.along {root : Node} (h : Good root) : Along root.end_ root.start root.child :=
  ⟨h.nonempty, h.sorted, fun c hc => (h.within c hc).1, fun c hc => (h.within c hc).2⟩

section along
variable {last s a b : Nat} {this : Node} {l rest : List Node} {g : Nat × Nat}

theorem Along.tail (h : Along last s (this :: rest)) : Along last (this.end_ + 1) rest :=
  ⟨fun c hc => h.nonempty c (mem_cons_of_mem _ hc), (pairwise_cons.mp h.sorted).2,
    fun c hc => (pairwise_cons.mp h.sorted).1 c hc,
    fun c hc => h.high c (mem_cons_of_mem _ hc)⟩

/-- A gap begins where the walk does or behind a child, and nothing in it is beyond the
root. -/
theorem gaps_ends (h : Along last s l) (hg : g ∈ gaps last s l) :
    s ≤ g.1 ∧ (g.1 = s ∨ g.1 ≤ last + 1) ∧ g.2 ≤ last + 1 := by
  induction l generalizing s with
  | nil =>
    rw [mem_singleton.mp hg]
    exact ⟨le_refl s, .inl rfl, le_refl _⟩
  | cons this rest ih =>
    have hlow := h.low this mem_cons_self
    have hne := h.nonempty this mem_cons_self
    have hhigh := h.high this mem_cons_self
    rcases mem_cons.mp hg with rfl | hg
    · exact ⟨le_refl s, .inl rfl, by omega⟩
    have hin := ih h.tail hg
    omega

theorem gaps_sorted (h : Along last s l) : (gaps last s l).Pairwise fun x y => x.1 < y.1 := by
  induction l generalizing s with
  | nil => exact pairwise_singleton _ _
  | cons this rest ih =>
    refine pairwise_cons.mpr ⟨?_, ih h.tail⟩
    intro g hg
    have hlow := h.low this mem_cons_self
    have hne := h.nonempty this mem_cons_self
    have hin := (gaps_ends h.tail hg).1
    show s < g.1
    omega

/-- What lies in a gap is apart from all children. -/
theorem gaps_free (h : Along last s l) (hg : g ∈ gaps last s l) (ha : g.1 ≤ a) (hb : b < g.2) :
    ∀ c ∈ l, c.end_ < a ∨ b < c.start := by
  induction l generalizing s with
  | nil => simp
  | cons this rest ih =>
    intro c hc
    rcases mem_cons.mp hg with rfl | hg
    · rcases mem_cons.mp hc with rfl | hc
      · exact .inr hb
      have hlt := (pairwise_cons.mp h.sorted).1 c hc
      have hne := h.nonempty this mem_cons_self
      exact .inr (by simp only at hb; omega)
    rcases mem_cons.mp hc with rfl | hc
    · have hin := (gaps_ends h.tail hg).1
      exact .inl (by omega)
    exact ih h.tail hg c hc

/-- What is apart from all children lies in a gap. -/
theorem gaps_cover (h : Along last s l) (hs : s ≤ a) (hb : b ≤ last)
    (hfree : ∀ c ∈ l, c.end_ < a ∨ b < c.start) : ∃ g ∈ gaps last s l, g.1 ≤ a ∧ b < g.2 := by
  induction l generalizing s with
  | nil => exact ⟨_, mem_cons_self, hs, lt_succ_of_le hb⟩
  | cons this rest ih =>
    rcases hfree this mem_cons_self with hlt | hlt
    · obtain ⟨g, hg, hin⟩ := ih h.tail hlt fun c hc => hfree c (mem_cons_of_mem _ hc)
      exact ⟨g, mem_cons_of_mem _ hg, hin⟩
    · exact ⟨_, mem_cons_self, hs, hlt⟩

/-- A gap that is not tried before `g` is `g` or begins behind its beginning. -/
theorem gaps_split {before after : List (Nat × Nat)} {x : Nat × Nat} (h : Along last s l)
    (heq : gaps last s l = before ++ g :: after) (hx : x ∈ gaps last s l) :
    x ∈ before ∨ x = g ∨ g.1 < x.1 := by
  have hsorted := gaps_sorted h
  rw [heq] at hx hsorted
  rw [pairwise_append, pairwise_cons] at hsorted
  rcases mem_append.mp hx with hx | hx
  · exact .inl hx
  rcases mem_cons.mp hx with rfl | hx
  · exact .inr (.inl rfl)
  · exact .inr (.inr (hsorted.2.1.1 x hx))

end along

/-! ## The walk -/

section walk
variable {root : Node} {size min max k : Nat}

/-- What is tried in a gap. -/
theorem try_gap_eq (hsize : 1 ≤ size) (align start stop : Nat) :
    try_gap size min max align start (stop - 1) =
      if ALIGN (raised min start) align + wanted size ≤ stop ∧
          ALIGN (raised min start) align + wanted size ≤ max + 1 then
        some (ALIGN (raised min start) align, ALIGN (raised min start) align + size - 1)
      else none := by
  unfold try_gap wanted raised
  generalize ALIGN (if start < min then min else start) align = aligned
  refine if_congr ?_ rfl rfl
  by_cases hone : size = 1
  · rw [if_pos hone]
    split <;> omega
  rw [if_neg hone]
  split <;> omega

theorem try_gap_none {start stop c : Nat} (hk : k < 32) (hsize : 1 ≤ size) (hmax : max < 2 ^ 32)
    (h : try_gap size min max (2 ^ k) start (stop - 1) = none) (hdvd : 2 ^ k ∣ c)
    (hmin : min ≤ c) (hstart : start ≤ c) (hbelow : c + wanted size ≤ max + 1) :
    stop < c + wanted size := by
  have hwanted := (le_wanted hsize).2
  have hc : c + 2 ^ k ≤ 2 ^ 32 := add_le_of_dvd hk hdvd (by omega)
  have hraised := raised_le hmin hstart
  have hle := (ALIGN_spec hk (by omega)).2.2 c hdvd hraised
  rw [try_gap_eq hsize] at h
  by_contra hfits
  rw [if_pos ⟨by omega, by omega⟩] at h
  cases h

/-- In a gap where `ALIGN` wraps there is a find. -/
theorem try_gap_wrapped {start stop : Nat} (hk : k < 32) (hsize : 1 ≤ size) (hmin : min ≤ max)
    (hmax : max < 2 ^ 32) (hwrap : 2 ^ 32 < raised min (start % 2 ^ 32) + 2 ^ k)
    (hstop : wanted size ≤ stop) (hbelow : wanted size ≤ max + 1) :
    try_gap size min max (2 ^ k) (start % 2 ^ 32) (stop - 1) ≠ none := by
  rw [try_gap_eq hsize, ALIGN_wrapped hk (raised_lt hmin hmax _) hwrap, zero_add,
    if_pos ⟨hstop, hbelow⟩]
  exact Option.some_ne_none _

/-- **`find_resource`** tries the gaps in their order. -/
theorem find_loop_eq {s : Nat} {l : List Node} (align root_end : Nat)
    (hpos : ∀ c ∈ l, 0 < c.start ∧ c.start < 2 ^ 32) :
    find_loop root_end size min max align (s % 2 ^ 32) l =
      (gaps root_end s l).findSome? fun g =>
        try_gap size min max align (g.1 % 2 ^ 32) (g.2 - 1) := by
  induction l generalizing s with
  | nil =>
    rw [gaps, findSome?_singleton]
    rfl
  | cons this rest ih =>
    have hthis := hpos this mem_cons_self
    rw [find_loop, gaps, findSome?_cons, sub32_eq hthis.2 hthis.1]
    have hrest := @ih (this.end_ + 1) fun c hc => hpos c (mem_cons_of_mem _ hc)
    cases try_gap size min max align (s % 2 ^ 32) (this.start - 1) with
    | none => exact hrest
    | some r => rfl

variable (hk : k < 32) (hsize : 1 ≤ size) (hmax : max < 2 ^ 32)
variable (hroot : Good root) (hstart : root.start < 2 ^ 32) (hend : root.end_ < 2 ^ 32)

include hsize hroot hstart hend in
theorem find_resource_eq (align : Nat) : find_resource root size min max align =
    (gaps root.end_ root.start root.child).findSome? fun g =>
      try_gap size min max align (g.1 % 2 ^ 32) (g.2 - 1) := by
  have halong := hroot.along
  unfold find_resource
  cases hchild : root.child with
  | nil =>
    show find_loop _ _ _ _ _ _ _ = _
    nth_rewrite 1 [← mod_eq_of_lt hstart]
    exact find_loop_eq align root.end_ fun c hc => absurd hc not_mem_nil
  | cons this rest => ?_
  rw [hchild] at halong
  have hlt : ∀ c ∈ this :: rest, c.start < 2 ^ 32 := by
    intro c hc
    have hne := halong.nonempty c hc
    have hle := halong.high c hc
    omega
  have hrest : ∀ c ∈ rest, 0 < c.start := by
    intro c hc
    have hle := halong.tail.low c hc
    omega
  simp only
  by_cases hzero : this.start = 0
  · -- Nothing is tried before a child that begins at 0.
    rw [if_pos hzero, gaps, findSome?_cons, try_gap_eq hsize, if_neg]
    · exact find_loop_eq align root.end_ fun c hc => ⟨hrest c hc, hlt c (mem_cons_of_mem _ hc)⟩
    have hwanted := (le_wanted hsize).2
    simp only [hzero]
    omega
  rw [if_neg hzero]
  nth_rewrite 1 [← mod_eq_of_lt hstart]
  refine find_loop_eq align root.end_ ?_
  intro c hc
  refine ⟨?_, hlt c hc⟩
  rcases mem_cons.mp hc with rfl | hc
  · exact Nat.pos_of_ne_zero hzero
  · exact hrest c hc

include hk hsize hmax hroot

/-- In the gap around a block that is long enough there is a find. -/
theorem exists_tried {c : Nat} (hc : Feasible root (wanted size) min max (2 ^ k) c) :
    ∃ g ∈ gaps root.end_ root.start root.child, g.1 ≤ c ∧
      try_gap size min max (2 ^ k) (g.1 % 2 ^ 32) (g.2 - 1) ≠ none := by
  have hbelow := hc.below
  have hwanted := (le_wanted hsize).2
  obtain ⟨hlow, hhigh, hfree⟩ := hc.free
  obtain ⟨g, hg, hgc, hcg⟩ := gaps_cover hroot.along hlow hhigh hfree
  refine ⟨g, hg, hgc, ?_⟩
  intro hnone
  have hstop := try_gap_none hk hsize hmax hnone hc.aligned hc.above
    (le_trans (mod_le _ _) hgc) (by omega)
  omega

/-- A block that is long enough does not begin before a gap, if nothing is found in those
before it. -/
theorem le_of_tried {before after : List (Nat × Nat)} {g : Nat × Nat} {c : Nat}
    (heq : gaps root.end_ root.start root.child = before ++ g :: after)
    (hnone : ∀ x ∈ before, try_gap size min max (2 ^ k) (x.1 % 2 ^ 32) (x.2 - 1) = none)
    (hc : Feasible root (wanted size) min max (2 ^ k) c) : g.1 ≤ c := by
  obtain ⟨x, hx, hxc, htry⟩ := exists_tried hk hsize hmax hroot hc
  rcases gaps_split hroot.along heq hx with hx | rfl | hlt
  · exact absurd (hnone x hx) htry
  · exact hxc
  · exact le_of_lt (lt_of_lt_of_le hlt hxc)

/-- Nothing is found: there is no block that is long enough, and nowhere to stray to. -/
theorem none_of_tried (hmin : min ≤ max)
    (hnone : ∀ g ∈ gaps root.end_ root.start root.child,
      try_gap size min max (2 ^ k) (g.1 % 2 ^ 32) (g.2 - 1) = none) :
    (∀ a, ¬Feasible root (wanted size) min max (2 ^ k) a) ∧
      ∀ a, ¬Strays root size min max (2 ^ k) a := by
  refine ⟨?_, ?_⟩
  · intro c hc
    obtain ⟨g, hg, _, htry⟩ := exists_tried hk hsize hmax hroot hc
    exact htry (hnone g hg)
  rintro a (⟨⟨hle, g, hg, hroom, hwrap⟩, rfl⟩ | ⟨_, rfl, hle, g, hg, hfst, hroom⟩)
  · exact try_gap_wrapped hk hsize hmin hmax hwrap hroom hle (hnone g hg)
  have htry := hnone g hg
  rw [try_gap_eq hsize, hfst, raised_zero, if_pos ⟨hroom, hle⟩] at htry
  cases htry

include hstart hend

/-- What is found in a gap, if nothing is found in those before it. -/
theorem some_of_tried (hmin : min ≤ max) {before after : List (Nat × Nat)} {g r : Nat × Nat}
    (heq : gaps root.end_ root.start root.child = before ++ g :: after)
    (hnone : ∀ x ∈ before, try_gap size min max (2 ^ k) (x.1 % 2 ^ 32) (x.2 - 1) = none)
    (htry : try_gap size min max (2 ^ k) (g.1 % 2 ^ 32) (g.2 - 1) = some r) :
    r.2 = r.1 + size - 1 ∧ (Lowest root (wanted size) min max (2 ^ k) r.1 ∨
      (∀ a, ¬Feasible root (wanted size) min max (2 ^ k) a) ∧
        Strays root size min max (2 ^ k) r.1) := by
  have hle := fun c => le_of_tried (c := c) hk hsize hmax hroot heq hnone
  have hwanted := (le_wanted hsize).2
  have hg : g ∈ gaps root.end_ root.start root.child := by
    rw [heq]
    exact mem_append_right before mem_cons_self
  have hends := gaps_ends hroot.along hg
  rw [try_gap_eq hsize] at htry
  split at htry
  case isFalse => cases htry
  case isTrue hfits => ?_
  cases htry
  refine ⟨rfl, ?_⟩
  simp only
  by_cases hwrap : 2 ^ 32 < raised min (g.1 % 2 ^ 32) + 2 ^ k
  · rw [ALIGN_wrapped hk (raised_lt hmin hmax _) hwrap] at hfits ⊢
    refine .inr ⟨?_, .inl ⟨⟨by omega, g, hg, by omega, hwrap⟩, rfl⟩⟩
    -- A block would have to be aligned above the last multiple.
    intro c hc
    have hbelow := hc.below
    have hraised := raised_le hc.above (le_trans (mod_le g.1 (2 ^ 32)) (hle c hc))
    have hlast := add_le_of_dvd hk hc.aligned (show c < 2 ^ 32 by omega)
    omega
  obtain ⟨hdvd, hge, hleast⟩ := ALIGN_spec hk (not_lt.mp hwrap)
  by_cases hfst : g.1 < 2 ^ 32
  · rw [mod_eq_of_lt hfst] at hfits hdvd hge hleast ⊢
    have hraised := le_raised min g.1
    refine .inl ⟨⟨hdvd, by omega, by omega, by omega, by omega, ?_⟩, ?_⟩
    · exact gaps_free hroot.along hg (by omega) (by omega)
    intro c hc
    exact hleast c hc.aligned (raised_le hc.above (hle c hc))
  -- The walk has begun again with the whole address space.
  have hend_space : g.1 = 2 ^ 32 := by omega
  rw [hend_space, raised_zero] at hfits ⊢
  refine .inr ⟨?_, .inr ⟨?_, rfl, hfits.2, g, hg, hend_space, hfits.1⟩⟩
  · intro c hc
    have hbelow := hc.below
    have hlow := hle c hc
    omega
  rintro ⟨hbelow, x, hx, hroom, hxwrap⟩
  have hx_end := gaps_ends hroot.along hx
  rcases gaps_split hroot.along heq hx with hx | rfl | hlt
  · exact try_gap_wrapped hk hsize hmin hmax hxwrap hroom hbelow (hnone x hx)
  · exact hwrap hxwrap
  · omega

/-- **What `find_resource` finds**: the lowest block that is long enough. Without one, what
the walk strays to. -/
theorem find_resource_cases (hmin : min ≤ max) :
    (∃ a, Lowest root (wanted size) min max (2 ^ k) a ∧
      find_resource root size min max (2 ^ k) = some (a, a + size - 1)) ∨
    (∀ a, ¬Feasible root (wanted size) min max (2 ^ k) a) ∧
      ((∃ a, Strays root size min max (2 ^ k) a ∧
          find_resource root size min max (2 ^ k) = some (a, a + size - 1)) ∨
        (∀ a, ¬Strays root size min max (2 ^ k) a) ∧
          find_resource root size min max (2 ^ k) = none) := by
  cases hfind : find_resource root size min max (2 ^ k) with
  | none =>
    rw [find_resource_eq hsize hroot hstart hend] at hfind
    obtain ⟨hfeasible, hstrays⟩ :=
      none_of_tried hk hsize hmax hroot hmin (findSome?_eq_none_iff.mp hfind)
    exact .inr ⟨hfeasible, .inr ⟨hstrays, rfl⟩⟩
  | some r =>
    rw [find_resource_eq hsize hroot hstart hend] at hfind
    obtain ⟨before, g, after, heq, htry, hnone⟩ := findSome?_eq_some_iff.mp hfind
    obtain ⟨a, b⟩ := r
    obtain ⟨hb, hfound⟩ := some_of_tried hk hsize hmax hroot hstart hend hmin heq hnone htry
    simp only at hb hfound
    subst hb
    rcases hfound with hlowest | ⟨hfeasible, hstrays⟩
    · exact .inl ⟨a, hlowest, rfl⟩
    · exact .inr ⟨hfeasible, .inl ⟨a, hstrays, rfl⟩⟩

end walk

/-! ## The new resource -/

/-- What is asked of `allocate_resource`: 0 is returned iff there is a free aligned block in
the bounds; the new resource then has the lowest one and is a child of the root.
Otherwise `-EBUSY` is returned and the tree is unchanged. -/
structure Right (root new : Node) (size min max align : Nat) (r : Int × Node) : Prop where
  zero_iff : r.1 = 0 ↔ ∃ a, Feasible root size min max align a
  lowest : r.1 = 0 → ∃ a, Lowest root size min max align a ∧
    Linked root (new.setRange a (a + size - 1)) r.2
  busy : r.1 ≠ 0 → r = (-EBUSY, root)

section right
variable {root new root' : Node} {size min max align a : Nat}

/-- The starts of the children tell where the new one is. -/
theorem Linked.start_sum (h : Linked root new root') :
    (root'.child.map Node.start).sum = (root.child.map Node.start).sum + new.start := by
  obtain ⟨pre, post, hchild, _, _, rfl⟩ := h
  rw [setChild_child, hchild, map_append, map_append, map_cons, sum_append_nat, sum_append_nat,
    sum_cons]
  show _ + (new.start + _) = _
  omega

theorem right_linked_iff (h : Linked root (new.setRange a (a + size - 1)) root') :
    Right root new size min max align (0, root') ↔ Lowest root size min max align a := by
  constructor
  · intro hright
    obtain ⟨b, hlowest, hlinked⟩ := hright.lowest rfl
    have hb := hlinked.start_sum
    have hsame : a = b := Nat.add_left_cancel (h.start_sum.symm.trans hb)
    rw [hsame]
    exact hlowest
  intro hlowest
  exact ⟨iff_of_true rfl ⟨a, hlowest.1⟩, fun _ => ⟨a, hlowest, h⟩, fun hne => absurd rfl hne⟩

theorem right_busy_iff : Right root new size min max align (-EBUSY, root) ↔
    ∀ a, ¬Lowest root size min max align a := by
  have hbusy : -EBUSY ≠ 0 := by decide
  constructor
  · intro hright a hlowest
    exact hbusy (hright.zero_iff.mpr ⟨a, hlowest.1⟩)
  intro hnone
  refine ⟨iff_of_false hbusy ?_, fun hzero => absurd hzero hbusy, fun _ => rfl⟩
  rintro ⟨c, hc⟩
  obtain ⟨b, hb⟩ := exists_lowest hc
  exact hnone b hb

/-- The new resource becomes a child iff the range that was found can be requested. -/
theorem allocate_resource_found (new : Node) (hroot : Good root) (hsize : 1 ≤ size)
    (hfind : find_resource root size min max align = some (a, a + size - 1)) :
    (Requestable root a (a + size - 1) ∧
      ∃ root', Linked root (new.setRange a (a + size - 1)) root' ∧
        allocate_resource root new size min max align = (0, root')) ∨
    (¬Requestable root a (a + size - 1) ∧
      allocate_resource root new size min max align = (-EBUSY, root)) := by
  have hne : (new.setRange a (a + size - 1)).start ≤ (new.setRange a (a + size - 1)).end_ := by
    show a ≤ a + size - 1
    omega
  unfold allocate_resource
  rw [hfind]
  by_cases hreq : Requestable root a (a + size - 1)
  · obtain ⟨root', heq, hlinked⟩ := __request_resource_linked hroot hne hreq
    refine .inl ⟨hreq, root', hlinked, ?_⟩
    simp [heq]
  refine .inr ⟨hreq, ?_⟩
  cases hres : __request_resource root (new.setRange a (a + size - 1)) with
  | linked root' => exact absurd (requestable_of_linked hroot hne hres).1 hreq
  | root => simp only [hres]
  | conflict pre first post => simp [hres]

end right

/-- **`allocate_resource`** does what is asked iff the lowest block has the bytes that the
walk looks for, or no block has them and the walk strays to the lowest one, if any. -/
theorem allocate_resource_lowest {root : Node} {size min max k : Nat} (new : Node)
    (hroot : Good root) (hstart : root.start < 2 ^ 32) (hend : root.end_ < 2 ^ 32) (hk : k < 32)
    (hsize : 1 ≤ size) (hmin : min ≤ max) (hmax : max < 2 ^ 32) :
    Right root new size min max (2 ^ k) (allocate_resource root new size min max (2 ^ k)) ↔
      Ordinary root size min max (2 ^ k) := by
  have hwanted := (le_wanted hsize).1
  rcases find_resource_cases hk hsize hmax hroot hstart hend hmin with
    ⟨a, hlong, hfind⟩ | ⟨hnone, hrest⟩
  · -- The lowest block that is long enough is given out.
    rcases allocate_resource_found new hroot hsize hfind with
      ⟨_, root', hlinked, heq⟩ | ⟨hnot, _⟩
    · rw [heq, right_linked_iff hlinked]
      constructor
      · intro hlowest
        exact .inl ⟨a, hlowest, hlong.1⟩
      rintro (⟨b, hb, hb_long⟩ | ⟨hnone, _⟩)
      · have hab : a = b := le_antisymm (hlong.2 b hb_long) (hb.2 a (hlong.1.mono hwanted))
        rw [hab]
        exact hb
      · exact absurd hlong.1 (hnone a)
    · exact absurd (hlong.1.mono hwanted).free hnot
  have hord : Ordinary root size min max (2 ^ k) ↔ ∀ a, Lowest root size min max (2 ^ k) a ↔
      Strays root size min max (2 ^ k) a ∧ Requestable root a (a + size - 1) := by
    constructor
    · rintro (⟨b, _, hb⟩ | ⟨_, h⟩)
      · exact absurd hb (hnone b)
      · exact h
    exact fun h => .inr ⟨hnone, h⟩
  rw [hord]
  -- Without a place that is free there must not be a block.
  have hbusy (h : ∀ a, ¬(Strays root size min max (2 ^ k) a ∧ Requestable root a (a + size - 1)))
      (heq : allocate_resource root new size min max (2 ^ k) = (-EBUSY, root)) :
      Right root new size min max (2 ^ k) (allocate_resource root new size min max (2 ^ k)) ↔
        ∀ a, Lowest root size min max (2 ^ k) a ↔
          Strays root size min max (2 ^ k) a ∧ Requestable root a (a + size - 1) := by
    rw [heq, right_busy_iff]
    exact forall_congr' fun a => (iff_false_right (h a)).symm
  rcases hrest with ⟨a, hstrays, hfind⟩ | ⟨hstrays, hfind⟩
  · rcases allocate_resource_found new hroot hsize hfind with
      ⟨hreq, root', hlinked, heq⟩ | ⟨hnot, heq⟩
    · rw [heq, right_linked_iff hlinked]
      constructor
      · intro hlowest b
        constructor
        · intro hb
          rw [hb.unique hlowest]
          exact ⟨hstrays, hreq⟩
        · rintro ⟨hb, _⟩
          rw [hb.unique hstrays]
          exact hlowest
      · exact fun h => (h a).mpr ⟨hstrays, hreq⟩
    refine hbusy ?_ heq
    rintro b ⟨hb, hreq⟩
    rw [hb.unique hstrays] at hreq
    exact hnot hreq
  · refine hbusy (fun b hb => hstrays b hb.1) ?_
    unfold allocate_resource
    rw [hfind]

/-- A resource without children. -/
def leaf (id start end_ : Nat) (parent : Option Nat) : Node := .mk ⟨id, start, end_, parent⟩ []

/-- Two children, with a gap of 8 bytes between them. -/
def twoChildren : Node := .mk ⟨0, 0, 31, none⟩ [leaf 1 0 7 (some 0), leaf 2 16 31 (some 0)]

theorem allocate_resource_lowest_twoChildren : Lowest twoChildren 4 9 31 (2 ^ 2) 12 ∧
    ∃ a, Lowest twoChildren 4 9 31 (2 ^ 2) a ∧
      Linked twoChildren ((leaf 3 0 0 none).setRange a (a + 4 - 1))
        (allocate_resource twoChildren (leaf 3 0 0 none) 4 9 31 (2 ^ 2)).2 := by
  have hlowest : Lowest twoChildren 4 9 31 (2 ^ 2) 12 := by
    refine ⟨⟨by decide, by decide, by decide, by decide, by decide, ?_⟩, ?_⟩
    · simp [twoChildren, leaf, Node.child, Node.start, Node.end_, Node.res]
    intro b hb
    obtain ⟨c, hc⟩ := hb.aligned
    have habove := hb.above
    omega
  have hgood : Good twoChildren := by
    constructor <;>
      simp [twoChildren, leaf, Node.child, Node.start, Node.end_, Node.res, Node.id, Res.Within]
  have hord : Ordinary twoChildren 4 9 31 (2 ^ 2) := .inl ⟨12, hlowest, hlowest.1⟩
  have hright := (allocate_resource_lowest (leaf 3 0 0 none) hgood (by decide) (by decide)
    (by decide) (by decide) (by decide) (by decide)).mpr hord
  exact ⟨hlowest, hright.lowest (hright.zero_iff.mpr ⟨12, hlowest.1⟩)⟩

/-- **A byte between two children, and an alignment that wraps.** The byte 5 is free, but
refused. And of an empty root that is the whole address space, where a block aligned to
a page from `0xfffff001` on is asked for, the block at 0 is given out. -/
theorem allocate_resource_byte_and_wrap :
    (Feasible (.mk ⟨0, 0, 9, none⟩ [leaf 1 0 4 (some 0), leaf 2 6 9 (some 0)]) 1 0 9 1 5 ∧
      (allocate_resource (.mk ⟨0, 0, 9, none⟩ [leaf 1 0 4 (some 0), leaf 2 6 9 (some 0)])
        (leaf 3 0 0 none) 1 0 9 1).1 = -EBUSY) ∧
    ((allocate_resource (leaf 0 0 0xffffffff none) (leaf 3 0 0 none) 16 0xfffff001 0xffffffff
        4096).1 = 0 ∧
      (allocate_resource (leaf 0 0 0xffffffff none) (leaf 3 0 0 none) 16 0xfffff001 0xffffffff
        4096).2.child.map Node.res = [⟨3, 0, 15, some 0⟩]) := by
  refine ⟨⟨⟨by decide, by decide, by decide, by decide, by decide, ?_⟩, by decide +kernel⟩,
    by decide +kernel, by decide +kernel⟩
  simp [leaf, Node.child, Node.start, Node.end_, Node.res]

end Nubernel.Resource
