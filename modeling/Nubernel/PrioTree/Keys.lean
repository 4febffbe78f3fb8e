import Nubernel.PrioTree.Links

/-! # Priority search trees: keys

Where a node may be in a tree. The way down to a node follows the bits of its
`start`, the highest first, and then those of its size; and no node ends later
than those above it.
-/

open List Nat Positions

namespace Nubernel.PrioTree

/-! ## The bits of a node -/

/-- The bit that decides at level `n`. -/
def key (heap : Heap) (bits p n : Nat) : Bool :=
  if n < bits then (heap.start p).testBit (bits - 1 - n)
  else (heap.last p - heap.start p).testBit (31 - (n - bits) % 32)

/-- `p` belongs above `q`: it ends later, or at the same place and begins earlier. -/
def Prior (heap : Heap) (p q : Nat) : Prop :=
  heap.last q < heap.last p ∨ heap.last p = heap.last q ∧ heap.start p < heap.start q

/-- The same interval. -/
def Equal (heap : Heap) (p q : Nat) : Prop :=
  heap.start p = heap.start q ∧ heap.last p = heap.last q

/-- An interval that a tree with `bits` bits can hold. -/
def Fits (heap : Heap) (bits p : Nat) : Prop :=
  heap.start p ≤ heap.last p ∧ heap.last p < 2 ^ bits

section keys
variable {heap : Heap} {bits p q : Nat} {π : Pos}

theorem Prior.trans {r : Nat} (h : Prior heap p q) (h' : Prior heap q r) : Prior heap p r := by
  unfold Prior at *
  omega

theorem prior_or (h : ¬Equal heap p q) : Prior heap p q ∨ Prior heap q p := by
  unfold Prior
  unfold Equal at h
  omega

theorem Prior.asymm (h : Prior heap p q) : ¬Prior heap q p := by
  unfold Prior at *
  omega

theorem Prior.not_equal (h : Prior heap p q) : ¬Equal heap p q := by
  unfold Prior at h
  unfold Equal
  omega

theorem Equal.key_eq (h : Equal heap p q) : key heap bits p = key heap bits q := by
  funext n
  unfold key
  rw [h.1, h.2]

theorem Fits.lt (h : Fits heap bits p) : heap.start p < 2 ^ bits := by
  obtain ⟨hle, hlt⟩ := h
  omega

/-- Two nodes that agree on a bit of `start`. -/
theorem testBit_eq_of_agree (hp : Fits heap bits p) (hq : Fits heap bits q) {i : Nat}
    (h : i < bits → key heap bits p (bits - 1 - i) = key heap bits q (bits - 1 - i)) :
    (heap.start p).testBit i = (heap.start q).testBit i := by
  by_cases hi : i < bits
  · have hbit := h hi
    unfold key at hbit
    rw [if_pos (by omega), if_pos (by omega), show bits - 1 - (bits - 1 - i) = i by omega] at hbit
    exact hbit
  have hpow : 2 ^ bits ≤ 2 ^ i := Nat.pow_le_pow_right (by decide) (by omega)
  rw [testBit_lt_two_pow (lt_of_lt_of_le hp.lt hpow),
    testBit_lt_two_pow (lt_of_lt_of_le hq.lt hpow)]

theorem start_eq_of_agree (hp : Fits heap bits p) (hq : Fits heap bits q)
    (h : ∀ n < bits, key heap bits p n = key heap bits q n) : heap.start p = heap.start q :=
  eq_of_testBit_eq fun _ => testBit_eq_of_agree hp hq fun _ => h _ (by omega)

/-- **The bits of `start` and of the size tell the intervals apart.** -/
theorem equal_of_agree (hbits : bits ≤ 32) (hp : Fits heap bits p) (hq : Fits heap bits q)
    (h : ∀ n < bits + 32, key heap bits p n = key heap bits q n) : Equal heap p q := by
  have hstart := start_eq_of_agree hp hq fun n hn => h n (by omega)
  have hpow : 2 ^ bits ≤ 2 ^ 32 := Nat.pow_le_pow_right (by decide) hbits
  have hsize : heap.last p - heap.start p = heap.last q - heap.start q := by
    refine eq_of_testBit_eq fun i => ?_
    by_cases hi : i < 32
    · have hbit := h (bits + (31 - i)) (by omega)
      unfold key at hbit
      rw [if_neg (by omega), if_neg (by omega),
        show 31 - (bits + (31 - i) - bits) % 32 = i by omega] at hbit
      exact hbit
    have hpow' : 2 ^ 32 ≤ 2 ^ i := Nat.pow_le_pow_right (by decide) (by omega)
    obtain ⟨_, hp⟩ := hp
    obtain ⟨_, hq⟩ := hq
    rw [testBit_lt_two_pow (by omega), testBit_lt_two_pow (by omega)]
  refine ⟨hstart, ?_⟩
  have hple := hp.1
  have hqle := hq.1
  omega

/-- Two intervals that end at the same place are in order from left to right. -/
theorem prior_of_tie {l r : Nat} (hl : Fits heap bits l) (hr : Fits heap bits r)
    (hlf : Follows (key heap bits l) (false :: π)) (hrf : Follows (key heap bits r) (true :: π))
    (hlast : heap.last l = heap.last r) : Prior heap l r := by
  right
  refine ⟨hlast, ?_⟩
  by_cases hlen : π.length < bits
  · refine lt_of_testBit (bits - 1 - π.length) ?_ ?_ ?_
    · have hbit := hlf.1
      unfold key at hbit
      rw [if_pos hlen] at hbit
      exact hbit.symm
    · have hbit := hrf.1
      unfold key at hbit
      rw [if_pos hlen] at hbit
      exact hbit.symm
    intro j hj
    exact testBit_eq_of_agree hl hr fun _ => hlf.2.agree hrf.2 (by omega)
  -- The size would be the same.
  have hstart := start_eq_of_agree hl hr fun n hn => hlf.2.agree hrf.2 (by omega)
  have hbit : key heap bits l π.length = key heap bits r π.length := by
    unfold key
    rw [hstart, hlast]
  rw [← hlf.1, ← hrf.1] at hbit
  cases hbit

end keys

/-! ## Values -/

/-- The bits of `start` on the way down to a position. -/
def value (bits : Nat) : Pos → Nat
  | [] => 0
  | b :: π => value bits π + if b ∧ π.length < bits then 2 ^ (bits - 1 - π.length) else 0

/-- A bit decides between the halves of a range. -/
theorem testBit_iff_le {x v k : Nat} (hdvd : 2 ^ (k + 1) ∣ v) (hle : v ≤ x)
    (hlt : x < v + 2 ^ (k + 1)) : x.testBit k = true ↔ v + 2 ^ k ≤ x := by
  obtain ⟨m, rfl⟩ := hdvd
  have hpos : 0 < 2 ^ k := Nat.two_pow_pos k
  rw [Nat.testBit_eq_decide_div_mod_eq, decide_eq_true_eq]
  obtain ⟨r, rfl⟩ := Nat.exists_eq_add_of_le hle
  have hr : r < 2 ^ k * 2 := by
    omega
  have hdiv : (2 ^ (k + 1) * m + r) / 2 ^ k = 2 * m + r / 2 ^ k := by
    rw [pow_succ, mul_assoc, mul_add_div hpos]
  rw [hdiv]
  have hquot : r / 2 ^ k < 2 := Nat.div_lt_of_lt_mul hr
  have hone : 1 ≤ r / 2 ^ k ↔ 2 ^ k ≤ r := by rw [le_div_iff_mul_le hpos, one_mul]
  generalize r / 2 ^ k = d at hquot hone
  omega

section value
variable {heap : Heap} {bits p : Nat} {π : Pos}

/-- The value of a position leaves the bits below it free. -/
theorem value_dvd (hlen : π.length ≤ bits) : 2 ^ (bits - π.length) ∣ value bits π := by
  induction π with
  | nil => exact Nat.dvd_zero _
  | cons b π ih => ?_
  rw [length_cons] at hlen ⊢
  have hdvd : 2 ^ (bits - (π.length + 1)) ∣ value bits π :=
    (pow_dvd_pow 2 (by omega)).trans (ih (by omega))
  refine (Nat.dvd_add_right hdvd).mpr ?_
  split
  · rw [show bits - 1 - π.length = bits - (π.length + 1) by omega]
  · exact Nat.dvd_zero _

section
variable (hp : Fits heap bits p) (hf : Follows (key heap bits p) π)
include hp hf

/-- While the bits of `start` decide, a position stands for a range. -/
theorem value_range (hlen : π.length ≤ bits) :
    value bits π ≤ heap.start p ∧ heap.start p < value bits π + 2 ^ (bits - π.length) := by
  induction π with
  | nil => exact ⟨zero_le _, by simpa [value] using hp.lt⟩
  | cons b π ih => ?_
  rw [length_cons] at hlen ⊢
  obtain ⟨hle, hlt⟩ := ih hf.2 (by omega)
  have hdvd := @value_dvd bits π (by omega)
  have hk : bits - π.length = bits - 1 - π.length + 1 := by omega
  have hk' : bits - (π.length + 1) = bits - 1 - π.length := by omega
  rw [hk] at hlt hdvd
  rw [hk']
  have hbit := hf.1
  unfold key at hbit
  rw [if_pos (by omega)] at hbit
  have hiff := testBit_iff_le hdvd hle hlt
  unfold value
  cases b with
  | false =>
    rw [← hbit] at hiff
    have hnot : ¬value bits π + 2 ^ (bits - 1 - π.length) ≤ heap.start p := fun h => by
      cases hiff.mpr h
    exact ⟨hle, by omega⟩
  | true =>
    rw [if_pos ⟨rfl, by omega⟩]
    have hge := hiff.mp hbit.symm
    exact ⟨hge, by omega⟩

omit hp hf in
theorem value_of_le (hlen : bits ≤ π.length) (b : Bool) : value bits (b :: π) = value bits π := by
  rw [value, if_neg (by omega), add_zero]

/-- When the bits of `start` are used up it is known. -/
theorem value_eq (hlen : bits ≤ π.length) : value bits π = heap.start p := by
  induction π with
  | nil =>
    obtain ⟨hle, hlt⟩ := value_range hp hf (by rw [length_nil]; omega)
    have hzero : bits = 0 := by
      rw [length_nil] at hlen
      omega
    subst hzero
    simp only [length_nil, Nat.sub_zero, Nat.pow_zero] at hlt
    omega
  | cons b π ih => ?_
  by_cases hlen' : bits ≤ π.length
  · rw [value_of_le hlen', ih hf.2 hlen']
  rw [length_cons] at hlen
  obtain ⟨hle, hlt⟩ := value_range hp hf (by rw [length_cons]; omega)
  rw [length_cons, show bits - (π.length + 1) = 0 by omega, pow_zero] at hlt
  omega

theorem value_le :
    value bits π ≤ heap.start p := by
  by_cases hlen : π.length ≤ bits
  · exact (value_range hp hf hlen).1
  · exact le_of_eq (value_eq hp hf (by omega))

end

/-- Nodes to the right begin later, or at the same place. -/
theorem start_le_of_right {q : Nat} {ρ σ : Pos} (hp : Fits heap bits p) (hq : Fits heap bits q)
    (hpf : Follows (key heap bits p) π) (hqf : Follows (key heap bits q) σ)
    (hpρ : false :: ρ <:+ π) (hqρ : true :: ρ <:+ σ) : heap.start p ≤ heap.start q := by
  have hpf := hpf.of_suffix hpρ
  have hqf := hqf.of_suffix hqρ
  by_cases hlen : ρ.length < bits
  · obtain ⟨_, hlt⟩ := value_range hp hpf (by rw [length_cons]; omega)
    have hle := value_le hq hqf
    rw [value, if_neg (by simp), length_cons,
      show bits - (ρ.length + 1) = bits - 1 - ρ.length by omega] at hlt
    rw [value, if_pos ⟨rfl, hlen⟩] at hle
    omega
  rw [← value_eq hp hpf.2 (by omega), ← value_eq hq hqf.2 (by omega)]

end value

/-! ## Trees -/

/-- The nodes are in the places where they belong. -/
structure WF (heap : Heap) (bits : Nat) (lay : Layout) : Prop where
  order : Ordered (Prior heap) lay
  follows : ∀ {π p}, lay π = some p → Follows (key heap bits p) π
  fits : ∀ {π p}, lay π = some p → Fits heap bits p

section wf
variable {heap heap' : Heap} {bits p q : Nat} {lay : Layout} {π σ : Pos}

theorem key_congr (hstart : heap'.start = heap.start) (hlast : heap'.last = heap.last) :
    key heap' bits p = key heap bits p := by
  funext n
  unfold key
  rw [hstart, hlast]

/-- Only the intervals matter. -/
theorem WF.congr (hwf : WF heap bits lay) (hstart : heap'.start = heap.start)
    (hlast : heap'.last = heap.last) : WF heap' bits lay := by
  refine ⟨?_, ?_, ?_⟩
  · intro b π p q hp hq
    unfold Prior
    rw [hstart, hlast]
    exact hwf.order b π p q hp hq
  · intro π p hp
    rw [key_congr hstart hlast]
    exact hwf.follows hp
  intro π p hp
  unfold Fits
  rw [hstart, hlast]
  exact hwf.fits hp

section
variable (hwf : WF heap bits lay) (hclosed : Closed lay) (hp : lay π = some p) (hq : lay σ = some q)
include hwf hclosed hp hq

/-- A node belongs above all that are below it. -/
theorem WF.above (hbelow : π <:+ σ) (hne : π ≠ σ) : Prior heap p q :=
  hwf.order.below (fun _ _ _ => Prior.trans) hclosed hp hq hbelow hne

theorem WF.unique (heq : Equal heap p q) : π = σ := by
  have hpf := hwf.follows hp
  have hqf := hwf.follows hq
  rw [heq.key_eq] at hpf
  -- One of the positions is above the other.
  have hcases : π <:+ σ ∨ σ <:+ π := by
    rcases le_total π.length σ.length with hle | hle
    · exact .inl (hpf.suffix hqf hle)
    · exact .inr (hqf.suffix hpf hle)
  by_contra hne
  rcases hcases with h | h
  · exact (hwf.above hclosed hp hq h hne).not_equal heq
  · exact (hwf.above hclosed hq hp h (Ne.symm hne)).not_equal ⟨heq.1.symm, heq.2.symm⟩

end

theorem WF.depth (hwf : WF heap bits lay) (hbits : bits ≤ 32) (hclosed : Closed lay)
    (hp : lay π = some p) : π.length ≤ bits + 32 := by
  cases π with
  | nil => exact zero_le _
  | cons b π => ?_
  obtain ⟨q, hq⟩ := Option.ne_none_iff_exists'.mp
    (hclosed b π (by rw [hp]; exact Option.some_ne_none p))
  by_contra hlen
  rw [length_cons] at hlen
  refine (hwf.order b π q p hq hp).not_equal (equal_of_agree hbits (hwf.fits hq) (hwf.fits hp) ?_)
  intro n hn
  exact (hwf.follows hq).agree (hwf.follows hp).2 (by omega)

end wf

end Nubernel.PrioTree
