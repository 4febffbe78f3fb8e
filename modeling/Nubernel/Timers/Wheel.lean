import Nubernel.Timers.Model

/-! # timer: the wheel

Where a timer may be, in terms of the iteration in which it is to be run. In `tv1` that
is one of the next 256 iterations. In a higher vector, whose lists stand for `unit`
iterations each, the first of these iterations is still to come, and it is the first one
at which the list is cascaded.
-/

open Nat hiding mul_eq_zero
open List

namespace Nubernel.Timers

/-! ## Where a timer may be -/

/-- The iterations that a list of the vector `k + 1` stands for. -/
def unit (k : Nat) : Nat := 2 ^ (TVR_BITS + k * TVN_BITS)

/-- The first iteration for which the timer is in a list of the vector `k + 1`. -/
def first (k due : Nat) : Nat := due / unit k * unit k

/-- The timer may be in this list before the iteration `c`. The vectors up to `m` have
already been cascaded for this iteration. -/
def Site (c m : Nat) (x : Timer) : Nat → Nat → Prop
  | 0, i => c ≤ x.due ∧ x.due < c + 256 ∧ i = x.due % 256
  | k + 1, i => k < 4 ∧ x.expires = x.due % 2 ^ 32 ∧ x.due < c + 2 ^ 31 ∧
      i = x.due / unit k % 64 ∧ (if k + 1 ≤ m then c + 1 else c) ≤ first k x.due ∧
      first k x.due < c + 64 * unit k

/-- A timer that can be added before the iteration `c`. -/
structure Addable (c : Nat) (x : Timer) : Prop where
  le : c ≤ x.due
  lt : x.due < c + 2 ^ 31
  expires : x.expires = x.due % 2 ^ 32 ∨ x.due = c ∧ 2 ^ 31 ≤ sub32 x.expires (c % 2 ^ 32)

section place
variable {c m : Nat} {x : Timer}

theorem unit_pos (k : Nat) : 0 < unit k := Nat.two_pow_pos _

/-- A site of a higher vector, with numbers. -/
theorem site_high {k u i : Nat} (hexp : x.expires = x.due % 2 ^ 32) (hlt : x.due < c + 2 ^ 31)
    (hk : k < 4) (hu : unit k = u) (hlow : c + u ≤ x.due) (hhigh : x.due < c + 64 * u)
    (hi : i = x.due / u % 64) : Site c m x (k + 1) i := by
  have hpos := unit_pos k
  have hdiv := div_add_mod' x.due u
  have hmod := mod_lt x.due (hu ▸ hpos)
  have hfirst : first k x.due = x.due / u * u := by
    unfold first
    rw [hu]
  refine ⟨hk, hexp, hlt, by rw [hu]; exact hi, ?_, ?_⟩
  · rw [hfirst]
    split <;> omega
  rw [hfirst, hu]
  omega

/-- **`internal_add_timer`** chooses a list where the timer may be. -/
theorem place_site (h : Addable c x) :
    Site c m x (place (c % 2 ^ 32) x.expires).1 (place (c % 2 ^ 32) x.expires).2 := by
  have hle := h.le
  have hlt := h.lt
  rcases h.expires with hexp | ⟨hdue, hlate⟩
  · have hidx : sub32 x.expires (c % 2 ^ 32) = x.due - c := by
      rw [hexp]
      unfold sub32
      omega
    unfold place TVR_SIZE TVR_BITS TVN_BITS TVN_SIZE
    simp only [hidx, shiftRight_eq_div_pow]
    by_cases h1 : x.due - c < 256
    · rw [if_pos h1]
      exact ⟨hle, by omega, by rw [hexp]; omega⟩
    rw [if_neg h1]
    by_cases h2 : x.due - c < 2 ^ (8 + 6)
    · rw [if_pos h2]
      exact site_high hexp hlt (by decide) (show unit 0 = 256 from rfl) (by omega) (by omega)
        (by omega)
    rw [if_neg h2]
    by_cases h3 : x.due - c < 2 ^ (8 + 2 * 6)
    · rw [if_pos h3]
      exact site_high hexp hlt (by decide) (show unit 1 = 16384 from rfl) (by omega) (by omega)
        (by omega)
    rw [if_neg h3]
    by_cases h4 : x.due - c < 2 ^ (8 + 3 * 6)
    · rw [if_pos h4]
      exact site_high hexp hlt (by decide) (show unit 2 = 1048576 from rfl) (by omega)
        (by omega) (by omega)
    rw [if_neg h4, if_neg (by omega)]
    exact site_high hexp hlt (by decide) (show unit 3 = 67108864 from rfl) (by omega)
      (by omega) (by omega)
  -- A late timer is put where the next iteration takes its timers from.
  have hsite : Site c m x 0 (c % 2 ^ 32 % 256) := ⟨hle, by omega, by omega⟩
  unfold place TVR_SIZE TVR_BITS TVN_BITS TVN_SIZE
  rw [if_neg (by omega), if_neg (by omega), if_neg (by omega), if_neg (by omega), if_pos hlate]
  exact hsite

end place

/-! ## The lists -/

/-- The timer is in some list. -/
def Base.Mem (b : Base) (x : Timer) : Prop := ∃ level i, x ∈ b.vec level i

/-- The wheel before the iteration `c`, with the vectors up to `m` already cascaded. -/
structure Wheel (c m : Nat) (b : Base) : Prop where
  jiffies : b.timer_jiffies = c % 2 ^ 32
  sites : ∀ level i x, x ∈ b.vec level i → Site c m x level i
  nodup : ∀ level i, (b.vec level i).Nodup
  unique : ∀ level i level' i' x, x ∈ b.vec level i → x ∈ b.vec level' i' →
    level = level' ∧ i = i'

section lists
variable {c m : Nat} {b : Base} {x y : Timer}

variable {level i level' i' : Nat} {l : List Timer}

theorem setVec_same : (b.setVec level i l).vec level i = l :=
  if_pos ⟨rfl, rfl⟩

theorem setVec_other (h : ¬(level' = level ∧ i' = i)) :
    (b.setVec level i l).vec level' i' = b.vec level' i' :=
  if_neg h

/-- Membership in the lists after one of them has been replaced. -/
theorem mem_setVec :
    y ∈ (b.setVec level i l).vec level' i' ↔
      (level' = level ∧ i' = i ∧ y ∈ l) ∨ (¬(level' = level ∧ i' = i) ∧ y ∈ b.vec level' i') := by
  by_cases h : level' = level ∧ i' = i
  · obtain ⟨rfl, rfl⟩ := h
    rw [setVec_same]
    simp
  rw [setVec_other h]
  constructor
  · exact fun hy => .inr ⟨h, hy⟩
  rintro (⟨h1, h2, _⟩ | ⟨_, hy⟩)
  · exact absurd ⟨h1, h2⟩ h
  · exact hy

/-- A list is replaced by part of it. -/
theorem Wheel.shrink {level i : Nat} {l : List Timer} (h : Wheel c m b)
    (hsub : ∀ y ∈ l, y ∈ b.vec level i) (hnodup : l.Nodup) : Wheel c m (b.setVec level i l) := by
  have hmem : ∀ {level' i' y}, y ∈ (b.setVec level i l).vec level' i' → y ∈ b.vec level' i' := by
    intro level' i' y hy
    rcases mem_setVec.mp hy with ⟨rfl, rfl, hl⟩ | ⟨_, hold⟩
    · exact hsub y hl
    · exact hold
  refine ⟨h.jiffies, fun _ _ _ hy => h.sites _ _ _ (hmem hy), ?_,
    fun _ _ _ _ _ hy hy' => h.unique _ _ _ _ _ (hmem hy) (hmem hy')⟩
  intro level' i'
  by_cases heq : level' = level ∧ i' = i
  · obtain ⟨rfl, rfl⟩ := heq
    rw [setVec_same]
    exact hnodup
  rw [setVec_other heq]
  exact h.nodup level' i'

theorem internal_add_spec (h : Wheel c m b) (hadd : Addable c x) (hnew : ¬b.Mem x) :
    Wheel c m (internal_add_timer b x) ∧
      ∀ y, (internal_add_timer b x).Mem y ↔ b.Mem y ∨ y = x := by
  have hsite := @place_site c m x hadd
  rw [← h.jiffies] at hsite
  unfold internal_add_timer
  generalize place b.timer_jiffies x.expires = p at hsite
  obtain ⟨level, i⟩ := p
  have hmem : ∀ {level' i' y},
      y ∈ (b.setVec level i (b.vec level i ++ [x])).vec level' i' ↔
        y ∈ b.vec level' i' ∨ (level' = level ∧ i' = i ∧ y = x) := by
    intro level' i' y
    rw [mem_setVec, mem_append, mem_singleton]
    by_cases heq : level' = level ∧ i' = i
    · obtain ⟨rfl, rfl⟩ := heq
      simp
    simp only [heq, not_false_eq_true, true_and]
    constructor
    · rintro (⟨h1, h2, _⟩ | hy)
      · exact absurd ⟨h1, h2⟩ heq
      · exact .inl hy
    rintro (hy | ⟨h1, h2, _⟩)
    · exact .inr hy
    · exact absurd ⟨h1, h2⟩ heq
  refine ⟨⟨h.jiffies, ?_, ?_, ?_⟩, ?_⟩
  · intro level' i' y hy
    rcases hmem.mp hy with hy | ⟨rfl, rfl, rfl⟩
    · exact h.sites level' i' y hy
    · exact hsite
  · intro level' i'
    by_cases heq : level' = level ∧ i' = i
    · obtain ⟨rfl, rfl⟩ := heq
      rw [setVec_same]
      refine nodup_append.mpr ⟨h.nodup level' i', pairwise_singleton _ x, ?_⟩
      intro y hy z hz hyz
      rw [mem_singleton.mp hz] at hyz
      subst hyz
      exact hnew ⟨level', i', hy⟩
    rw [setVec_other heq]
    exact h.nodup level' i'
  · intro l1 i1 l2 i2 y hy1 hy2
    rcases hmem.mp hy1 with hold1 | ⟨h1, h2, hyx⟩
    · rcases hmem.mp hy2 with hold2 | ⟨h3, h4, hyx⟩
      · exact h.unique l1 i1 l2 i2 y hold1 hold2
      subst hyx
      exact absurd ⟨l1, i1, hold1⟩ hnew
    rcases hmem.mp hy2 with hold2 | ⟨h3, h4, _⟩
    · subst hyx
      exact absurd ⟨l2, i2, hold2⟩ hnew
    exact ⟨h1.trans h3.symm, h2.trans h4.symm⟩
  intro y
  constructor
  · rintro ⟨level', i', hy⟩
    rcases hmem.mp hy with hy | ⟨_, _, hy⟩
    · exact .inl ⟨level', i', hy⟩
    · exact .inr hy
  rintro (⟨level', i', hy⟩ | hy)
  · exact ⟨level', i', hmem.mpr (.inl hy)⟩
  · exact ⟨level, i, hmem.mpr (.inr ⟨rfl, rfl, hy⟩)⟩

theorem add_all_spec (h : Wheel c m b) (hadd : ∀ x ∈ l, Addable c x) (hnodup : l.Nodup)
    (hnew : ∀ x ∈ l, ¬b.Mem x) :
    Wheel c m (l.foldl internal_add_timer b) ∧
      ∀ y, (l.foldl internal_add_timer b).Mem y ↔ b.Mem y ∨ y ∈ l := by
  induction l generalizing b with
  | nil =>
    refine ⟨h, ?_⟩
    intro y
    simp
  | cons x l ih => ?_
  have hx := nodup_cons.mp hnodup
  obtain ⟨hwheel, hmem⟩ := internal_add_spec h (hadd x mem_cons_self) (hnew x mem_cons_self)
  obtain ⟨hwheel', hmem'⟩ := ih hwheel (fun y hy => hadd y (mem_cons_of_mem x hy)) hx.2 (by
    intro y hy hin
    rcases (hmem y).mp hin with hin | rfl
    · exact hnew y (mem_cons_of_mem x hy) hin
    · exact hx.1 hy)
  refine ⟨hwheel', ?_⟩
  intro y
  rw [foldl_cons, hmem', hmem, mem_cons, or_assoc]

end lists

/-! ## Cascades -/

section cascades
variable {c k : Nat} {b : Base}

/-- In the list that is cascaded are the timers of the iterations that begin now. -/
theorem first_eq_of_index {due : Nat} (hc : c % unit k = 0)
    (hlow : c ≤ first k due) (hhigh : first k due < c + 64 * unit k)
    (hindex : due / unit k % 64 = c / unit k % 64) : first k due = c := by
  have hpos := unit_pos k
  have hdiv := Nat.div_add_mod' c (unit k)
  rw [hc, add_zero] at hdiv
  unfold first at hlow hhigh ⊢
  rw [← hdiv] at hlow hhigh ⊢
  rw [← add_mul] at hhigh
  have h1 := Nat.le_of_mul_le_mul_right hlow hpos
  have h2 := Nat.lt_of_mul_lt_mul_right hhigh
  rw [show due / unit k = c / unit k by omega]

/-- A vector that is not cascaded has no timers for iterations that begin now. -/
theorem Wheel.of_not_dvd (h : Wheel c k b) (hc : c % unit k ≠ 0) : Wheel c 4 b := by
  refine ⟨h.jiffies, ?_, h.nodup, h.unique⟩
  intro level i x hx
  have hsite := h.sites level i x hx
  cases level with
  | zero => exact hsite
  | succ j => ?_
  obtain ⟨hj, hexp, hlt, hi, hlow, hhigh⟩ := hsite
  refine ⟨hj, hexp, hlt, hi, ?_, hhigh⟩
  rw [if_pos (by omega)]
  by_cases hjk : j + 1 ≤ k
  · rw [if_pos hjk] at hlow
    exact hlow
  rw [if_neg hjk] at hlow
  have hdvd : unit k ∣ first j x.due := by
    refine dvd_trans (pow_dvd_pow 2 ?_) (dvd_mul_left _ _)
    unfold TVR_BITS TVN_BITS
    omega
  have hne : first j x.due ≠ c := by
    intro heq
    rw [heq] at hdvd
    exact hc (mod_eq_zero_of_dvd hdvd)
  omega

theorem cascade_spec (h : Wheel c k b) (hk : k < 4) (hc : c % unit k = 0) :
    Wheel c (k + 1) (cascade b (k + 1) (c / unit k % 64)) ∧
      ∀ y, (cascade b (k + 1) (c / unit k % 64)).Mem y ↔ b.Mem y := by
  have hfirst : ∀ x i, x ∈ b.vec (k + 1) i → i = c / unit k % 64 → first k x.due = c := by
    intro x i hx hi
    obtain ⟨_, _, _, hindex, hlow, hhigh⟩ := h.sites (k + 1) i x hx
    rw [if_neg (by omega)] at hlow
    exact first_eq_of_index hc hlow hhigh (by rw [← hindex]; exact hi)
  -- The wheel without the list.
  have hempty : Wheel c (k + 1) (b.setVec (k + 1) (c / unit k % 64) []) := by
    have hshrunk := @Wheel.shrink c k b (k + 1) (c / unit k % 64) [] h (by simp) nodup_nil
    refine ⟨hshrunk.jiffies, ?_, hshrunk.nodup, hshrunk.unique⟩
    intro level i x hx
    have hsite := hshrunk.sites level i x hx
    cases level with
    | zero => exact hsite
    | succ j => ?_
    obtain ⟨hj, hexp, hlt, hi, hlow, hhigh⟩ := hsite
    refine ⟨hj, hexp, hlt, hi, ?_, hhigh⟩
    by_cases hjk : j = k
    · subst hjk
      rw [if_pos (le_refl _)]
      rw [if_neg (by omega)] at hlow
      rcases mem_setVec.mp hx with ⟨_, _, hnil⟩ | ⟨hne, _⟩
      · cases hnil
      -- Another list, so another iteration.
      have hdiff : first j x.due ≠ c := by
        intro heq
        refine hne ⟨rfl, ?_⟩
        rw [hi, ← heq]
        unfold first
        rw [Nat.mul_div_cancel _ (unit_pos j)]
      omega
    split at hlow
    · rw [if_pos (by omega)]
      exact hlow
    rw [if_neg (by omega)]
    exact hlow
  have hadd : ∀ x ∈ b.vec (k + 1) (c / unit k % 64), Addable c x := by
    intro x hx
    obtain ⟨_, hexp, hlt, _⟩ := h.sites _ _ x hx
    have heq := hfirst x _ hx rfl
    refine ⟨?_, hlt, .inl hexp⟩
    rw [← heq]
    exact div_mul_le_self _ _
  have hnew : ∀ x ∈ b.vec (k + 1) (c / unit k % 64),
      ¬(b.setVec (k + 1) (c / unit k % 64) []).Mem x := by
    rintro x hx ⟨level, i, hin⟩
    rcases mem_setVec.mp hin with ⟨_, _, hnil⟩ | ⟨hne, hin⟩
    · cases hnil
    · exact hne (h.unique _ _ _ _ x hin hx)
  obtain ⟨hwheel, hmem⟩ := add_all_spec hempty hadd (h.nodup _ _) hnew
  refine ⟨hwheel, ?_⟩
  intro y
  refine (hmem y).trans ?_
  constructor
  · rintro (⟨level, i, hy⟩ | hy)
    · rcases mem_setVec.mp hy with ⟨_, _, hnil⟩ | ⟨_, hy⟩
      · cases hnil
      · exact ⟨level, i, hy⟩
    exact ⟨_, _, hy⟩
  rintro ⟨level, i, hy⟩
  by_cases heq : level = k + 1 ∧ i = c / unit k % 64
  · obtain ⟨rfl, rfl⟩ := heq
    exact .inr hy
  exact .inl ⟨level, i, mem_setVec.mpr (.inr ⟨heq, hy⟩)⟩

/-- The indices, without wrapping. -/
theorem INDEX_eq (h : Wheel c k b) {n : Nat} (hn : n < 4) : INDEX b n = c / unit n % 64 := by
  unfold INDEX unit TVR_BITS TVN_BITS TVN_SIZE
  rw [h.jiffies, shiftRight_eq_div_pow]
  obtain rfl | rfl | rfl | rfl : n = 0 ∨ n = 1 ∨ n = 2 ∨ n = 3 := by omega
  · omega
  · omega
  · omega
  · omega

/-- A vector is cascaded if all lower indices are 0. -/
theorem unit_dvd_succ (hc : c % unit k = 0) : c % unit (k + 1) = 0 ↔ c / unit k % 64 = 0 := by
  have hunit : unit (k + 1) = unit k * 64 := by
    unfold unit TVR_BITS TVN_BITS
    rw [Nat.succ_mul, ← Nat.add_assoc, Nat.pow_add]
  rw [hunit, Nat.mod_mul, hc, Nat.zero_add, Nat.mul_eq_zero]
  have hpos := unit_pos k
  constructor
  · rintro (h | h)
    · omega
    · exact h
  exact .inr

theorem cascades_spec (h : Wheel c 0 b) :
    Wheel c 4 (cascades b) ∧ ∀ y, (cascades b).Mem y ↔ b.Mem y := by
  have hindex : b.timer_jiffies % TVR_SIZE = c % unit 0 := by
    rw [h.jiffies]
    show c % 2 ^ 32 % 256 = c % 256
    omega
  unfold cascades
  rw [hindex, INDEX_eq h (by decide), INDEX_eq h (by decide), INDEX_eq h (by decide),
    INDEX_eq h (by decide)]
  by_cases h0 : c % unit 0 = 0
  · rw [if_pos h0]
    obtain ⟨hw1, hm1⟩ := cascade_spec h (by decide) h0
    by_cases h1 : c / unit 0 % 64 = 0
    · have hd1 := (unit_dvd_succ h0).mpr h1
      obtain ⟨hw2, hm2⟩ := cascade_spec hw1 (by decide) hd1
      rw [if_pos h1]
      by_cases h2 : c / unit 1 % 64 = 0
      · have hd2 := (unit_dvd_succ hd1).mpr h2
        obtain ⟨hw3, hm3⟩ := cascade_spec hw2 (by decide) hd2
        rw [if_pos h2]
        by_cases h3 : c / unit 2 % 64 = 0
        · have hd3 := (unit_dvd_succ hd2).mpr h3
          obtain ⟨hw4, hm4⟩ := cascade_spec hw3 (by decide) hd3
          rw [if_pos h3]
          exact ⟨hw4, fun y => (hm4 y).trans ((hm3 y).trans ((hm2 y).trans (hm1 y)))⟩
        rw [if_neg h3]
        exact ⟨hw3.of_not_dvd fun hd => h3 ((unit_dvd_succ hd2).mp hd),
          fun y => (hm3 y).trans ((hm2 y).trans (hm1 y))⟩
      rw [if_neg h2]
      exact ⟨hw2.of_not_dvd fun hd => h2 ((unit_dvd_succ hd1).mp hd),
        fun y => (hm2 y).trans (hm1 y)⟩
    rw [if_neg h1]
    exact ⟨hw1.of_not_dvd fun hd => h1 ((unit_dvd_succ h0).mp hd), hm1⟩
  rw [if_neg h0]
  exact ⟨h.of_not_dvd h0, fun _ => Iff.rfl⟩

end cascades

end Nubernel.Timers
