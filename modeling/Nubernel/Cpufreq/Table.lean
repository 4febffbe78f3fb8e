import Nubernel.Lib.Word

/-! # cpufreq: frequency tables

Model of `drivers/cpufreq/freq_table.c`. A policy allows the frequencies
from `min` to `max`. `cpufreq_frequency_table_verify` adjusts a policy
such that there is a frequency for it in the table, and
`cpufreq_frequency_table_target` looks for the frequency next to a target.
This kernel has a second table, `enabled_freqs`, that can be written from
user space; the look-up skips the entries that it does not enable.
-/

open List

namespace Nubernel.Cpufreq

/-! ## Tables and policies -/

def CPUFREQ_ENTRY_INVALID : Nat := 0xffffffff

def CPUFREQ_TABLE_END : Nat := 0xfffffffe

/-- The length of `enabled_freqs`. -/
def NUM_FREQ : Nat := 11

def CPUFREQ_RELATION_L : Nat := 0

def CPUFREQ_RELATION_H : Nat := 1

/-- A table of frequencies up to `CPUFREQ_TABLE_END`. -/
structure FrequencyTable where
  entries : List Nat
  words : ∀ freq ∈ entries, freq < 2 ^ 32 ∧ freq ≠ CPUFREQ_TABLE_END

/-- The limits in `struct cpufreq_policy`, and those of the CPU. -/
structure Policy where
  min : Nat
  max : Nat
  cpuinfo_min : Nat
  cpuinfo_max : Nat
  deriving DecidableEq, Repr

/-! ## The functions of the source -/

def cpufreq_verify_within_limits (policy : Policy) (min max : Nat) : Policy :=
  let policy := if policy.min < min then { policy with min := min } else policy
  let policy := if policy.max < min then { policy with max := min } else policy
  let policy := if policy.min > max then { policy with min := max } else policy
  let policy := if policy.max > max then { policy with max := max } else policy
  if policy.min > policy.max then { policy with min := policy.max } else policy

/-- The loop of `cpufreq_frequency_table_verify`: how many entries are within
the limits, and the next one above. -/
def verify_loop (policy : Policy) : List Nat → Nat → Nat → Nat × Nat
  | [], count, next_larger => (count, next_larger)
  | freq :: rest, count, next_larger =>
    if freq = CPUFREQ_ENTRY_INVALID then
      verify_loop policy rest count next_larger
    else if policy.min ≤ freq ∧ freq ≤ policy.max then
      verify_loop policy rest (count + 1) next_larger
    else if freq < next_larger ∧ policy.max < freq then
      verify_loop policy rest count freq
    else
      verify_loop policy rest count next_larger

/-- `cpufreq_frequency_table_verify` for a CPU that is online: the policy as
it is left. -/
def cpufreq_frequency_table_verify (policy : Policy) (table : FrequencyTable) : Policy :=
  let policy := cpufreq_verify_within_limits policy policy.cpuinfo_min policy.cpuinfo_max
  let r := verify_loop policy table.entries 0 0xffffffff
  -- Nothing within the limits: the limit is raised to the next frequency.
  let policy := if r.1 = 0 then { policy with max := r.2 } else policy
  cpufreq_verify_within_limits policy policy.cpuinfo_min policy.cpuinfo_max

/-- `optimal` and `suboptimal`; the index is `~0` if there is no entry. -/
structure Slot where
  index : Nat
  frequency : Nat
  deriving DecidableEq, Repr

/-- How a frequency is compared with the one that has the slot. -/
def at_least (a b : Nat) : Bool := decide (a ≥ b)

def at_most (a b : Nat) : Bool := decide (a ≤ b)

/-- An entry takes the slot if it compares well with the one that has it. -/
def Slot.offer (slot : Slot) (better : Nat → Nat → Bool) (index freq : Nat) : Slot :=
  if better freq slot.frequency then ⟨index, freq⟩ else slot

/-- Whether the look-up skips an entry. -/
def skipped (policy : Policy) (enabled_freqs : Nat → Int) (i freq : Nat) : Bool :=
  decide (enabled_freqs i = 0 ∨ freq = CPUFREQ_ENTRY_INVALID ∨ freq < policy.min ∨ freq > policy.max)

/-- The loop of `cpufreq_frequency_table_target`. -/
def target_loop (policy : Policy) (enabled_freqs : Nat → Int) (target_freq relation : Nat) :
    List Nat → Nat → Slot → Slot → Slot × Slot
  | [], _, optimal, suboptimal => (optimal, suboptimal)
  | freq :: rest, i, optimal, suboptimal =>
    if skipped policy enabled_freqs i freq then
      target_loop policy enabled_freqs target_freq relation rest (i + 1) optimal suboptimal
    else if relation = CPUFREQ_RELATION_H then
      if freq ≤ target_freq then
        target_loop policy enabled_freqs target_freq relation rest (i + 1)
          (optimal.offer at_least i freq) suboptimal
      else
        target_loop policy enabled_freqs target_freq relation rest (i + 1) optimal
          (suboptimal.offer at_most i freq)
    else if relation = CPUFREQ_RELATION_L then
      if freq ≥ target_freq then
        target_loop policy enabled_freqs target_freq relation rest (i + 1)
          (optimal.offer at_most i freq) suboptimal
      else
        target_loop policy enabled_freqs target_freq relation rest (i + 1) optimal
          (suboptimal.offer at_least i freq)
    else
      target_loop policy enabled_freqs target_freq relation rest (i + 1) optimal suboptimal

/-- `cpufreq_frequency_table_target` for a CPU that is online: the index, or
`-EINVAL`. -/
def cpufreq_frequency_table_target (policy : Policy) (table : FrequencyTable)
    (enabled_freqs : Nat → Int) (target_freq relation : Nat) : Option Nat :=
  let optimal : Slot := ⟨0xffffffff, if relation = CPUFREQ_RELATION_L then 0xffffffff else 0⟩
  let suboptimal : Slot := ⟨0xffffffff, if relation = CPUFREQ_RELATION_H then 0xffffffff else 0⟩
  let r := target_loop policy enabled_freqs target_freq relation table.entries 0 optimal suboptimal
  -- `i` is the length here, and the index is `~0` if the slot was not taken.
  if r.1.index > table.entries.length then
    if r.2.index > table.entries.length then none else some r.2.index
  else
    some r.1.index

/-! ## The best entry -/

/-- The entry is enabled, valid and within the limits. -/
def Usable (policy : Policy) (table : FrequencyTable) (enabled_freqs : Nat → Int) (i freq : Nat) :
    Prop :=
  table.entries[i]? = some freq ∧ skipped policy enabled_freqs i freq = false

/-- A slot after entries from `0` to `i`: it has the best of the entries that
meet `P`, or there is none and it is as it was at the start. -/
def Best (better : Nat → Nat → Bool) (P : Nat → Nat → Prop) (i : Nat) (slot : Slot) : Prop :=
  slot.index = 0xffffffff ∧ (∀ j freq, j < i → ¬ P j freq) ∧
      (∀ freq, freq < 2 ^ 32 → better freq slot.frequency = true) ∨
    slot.index < i ∧ P slot.index slot.frequency ∧
      ∀ j freq, j < i → P j freq → better slot.frequency freq = true

/-- An order in which entries may be compared. -/
structure Comparison (better : Nat → Nat → Bool) : Prop where
  refl : ∀ a, better a a = true
  trans : ∀ a b c, better a b = true → better b c = true → better a c = true
  total : ∀ a b, better a b = true ∨ better b a = true

theorem comparison_at_least : Comparison at_least := by
  constructor <;> simp only [at_least, decide_eq_true_eq] <;> omega

theorem comparison_at_most : Comparison at_most := by
  constructor <;> simp only [at_most, decide_eq_true_eq] <;> omega

section best
variable {better : Nat → Nat → Bool} {P : Nat → Nat → Prop} {i freq : Nat} {slot : Slot}

theorem Best.skip (h : Best better P i slot) (hnot : ∀ freq, ¬ P i freq) :
    Best better P (i + 1) slot := by
  have hlt : ∀ j freq, j < i + 1 → P j freq → j < i := by
    intro j freq hj hP
    rcases Nat.lt_succ_iff_lt_or_eq.mp hj with hlt | rfl
    · exact hlt
    · exact absurd hP (hnot freq)
  rcases h with ⟨hindex, hnone, hstart⟩ | ⟨hindex, hP, hbest⟩
  · exact .inl ⟨hindex, fun j freq hj hP => hnone j freq (hlt j freq hj hP) hP, hstart⟩
  · exact .inr ⟨by omega, hP, fun j freq hj hP => hbest j freq (hlt j freq hj hP) hP⟩

/-- An entry is offered the slot. -/
theorem Best.offer (h : Best better P i slot) (hcmp : Comparison better) (hP : P i freq)
    (hword : freq < 2 ^ 32) (huniq : ∀ freq', P i freq' → freq' = freq) :
    Best better P (i + 1) (slot.offer better i freq) := by
  right
  unfold Slot.offer
  rcases h with ⟨_, hnone, hstart⟩ | ⟨hindex, hslot, hbest⟩
  -- The value that the slot starts with loses against any frequency.
  · rw [if_pos (hstart freq hword)]
    refine ⟨Nat.lt_succ_self i, hP, ?_⟩
    intro j freq' hj hP'
    rcases Nat.lt_succ_iff_lt_or_eq.mp hj with hlt | rfl
    · exact absurd hP' (hnone j freq' hlt)
    rw [huniq freq' hP']
    exact hcmp.refl freq
  split
  -- On a tie the later entry takes the slot.
  · rename_i hbetter
    refine ⟨Nat.lt_succ_self i, hP, ?_⟩
    intro j freq' hj hP'
    rcases Nat.lt_succ_iff_lt_or_eq.mp hj with hlt | rfl
    · exact hcmp.trans _ _ _ hbetter (hbest j freq' hlt hP')
    rw [huniq freq' hP']
    exact hcmp.refl freq
  rename_i hworse
  refine ⟨by omega, hslot, ?_⟩
  intro j freq' hj hP'
  rcases Nat.lt_succ_iff_lt_or_eq.mp hj with hlt | rfl
  · exact hbest j freq' hlt hP'
  rw [huniq freq' hP']
  rcases hcmp.total slot.frequency freq with hor | hor
  · exact hor
  · exact absurd hor hworse

end best

section loop
variable {side : Nat → Bool} {better worse : Nat → Nat → Bool}

/-- Entries on one side of the target are offered the first slot, those on the
other side the second one. -/
def Offers (policy : Policy) (enabled_freqs : Nat → Int) (target_freq relation : Nat)
    (side : Nat → Bool) (better worse : Nat → Nat → Bool) : Prop :=
  ∀ freq rest i optimal suboptimal, skipped policy enabled_freqs i freq = false →
    target_loop policy enabled_freqs target_freq relation (freq :: rest) i optimal suboptimal =
      if side freq then
        target_loop policy enabled_freqs target_freq relation rest (i + 1)
          (optimal.offer better i freq) suboptimal
      else
        target_loop policy enabled_freqs target_freq relation rest (i + 1) optimal
          (suboptimal.offer worse i freq)

/-- **The loop.** Entries on one side of the target are offered the first
slot, those on the other side the second one. -/
theorem target_loop_best (policy : Policy) (table : FrequencyTable) (enabled_freqs : Nat → Int)
    (target_freq relation : Nat) (hbetter : Comparison better) (hworse : Comparison worse)
    (hstep : Offers policy enabled_freqs target_freq relation side better worse)
    (rest : List Nat) (i : Nat) (hrest : table.entries.drop i = rest) (optimal suboptimal : Slot)
    (hoptimal : Best better (fun j freq => Usable policy table enabled_freqs j freq ∧
      side freq = true) i optimal)
    (hsuboptimal : Best worse (fun j freq => Usable policy table enabled_freqs j freq ∧
      side freq = false) i suboptimal) :
    Best better (fun j freq => Usable policy table enabled_freqs j freq ∧ side freq = true)
        (i + rest.length)
        (target_loop policy enabled_freqs target_freq relation rest i optimal suboptimal).1 ∧
      Best worse (fun j freq => Usable policy table enabled_freqs j freq ∧ side freq = false)
        (i + rest.length)
        (target_loop policy enabled_freqs target_freq relation rest i optimal suboptimal).2 := by
  induction rest generalizing i optimal suboptimal with
  | nil => exact ⟨hoptimal, hsuboptimal⟩
  | cons freq rest ih => ?_
  have hentry : table.entries[i]? = some freq := by
    rw [← head?_drop, hrest, head?_cons]
  -- The entries are walked by their index, which selects the one of `enabled_freqs`.
  have hrest' : table.entries.drop (i + 1) = rest := by
    rw [← drop_drop, hrest, drop_one, tail_cons]
  have hword := (table.words freq (mem_of_getElem? hentry)).1
  have hfreq : ∀ freq', Usable policy table enabled_freqs i freq' → freq' = freq := by
    intro freq' husable
    rw [husable.1, Option.some.injEq] at hentry
    exact hentry
  rw [length_cons, Nat.add_comm rest.length, ← Nat.add_assoc]
  cases hskip : skipped policy enabled_freqs i freq with
  | true =>
    have hnot : ∀ freq', ¬ Usable policy table enabled_freqs i freq' := by
      intro freq' husable
      have hused := husable.2
      rw [hfreq freq' husable, hskip] at hused
      cases hused
    rw [target_loop, if_pos hskip]
    exact ih (i + 1) hrest' _ _ (hoptimal.skip fun freq' h => hnot freq' h.1)
      (hsuboptimal.skip fun freq' h => hnot freq' h.1)
  | false => ?_
  have husable : Usable policy table enabled_freqs i freq := ⟨hentry, hskip⟩
  have hother : ∀ b, side freq ≠ b →
      ∀ freq', ¬ (Usable policy table enabled_freqs i freq' ∧ side freq' = b) := by
    intro b hne freq' h
    exact hne (hfreq freq' h.1 ▸ h.2)
  rw [hstep freq rest i optimal suboptimal hskip]
  cases hside : side freq with
  | true =>
    exact ih (i + 1) hrest' _ _ (hoptimal.offer hbetter ⟨husable, hside⟩ hword
      fun freq' h => hfreq freq' h.1) (hsuboptimal.skip (hother _ (by simp [hside])))
  | false =>
    exact ih (i + 1) hrest' _ _ (hoptimal.skip (hother _ (by simp [hside])))
      (hsuboptimal.offer hworse ⟨husable, hside⟩ hword fun freq' h => hfreq freq' h.1)

theorem offers_L (policy : Policy) (enabled_freqs : Nat → Int) (target_freq : Nat) :
    Offers policy enabled_freqs target_freq CPUFREQ_RELATION_L
      (fun freq => decide (freq ≥ target_freq)) at_most at_least := by
  intro freq rest i optimal suboptimal hskip
  simp [target_loop, hskip, CPUFREQ_RELATION_L, CPUFREQ_RELATION_H]

theorem offers_H (policy : Policy) (enabled_freqs : Nat → Int) (target_freq : Nat) :
    Offers policy enabled_freqs target_freq CPUFREQ_RELATION_H
      (fun freq => decide (freq ≤ target_freq)) at_least at_most := by
  intro freq rest i optimal suboptimal hskip
  simp [target_loop, hskip, CPUFREQ_RELATION_H]

/-- The look-up returns the entry in the first slot, or else the one in the
second slot. -/
theorem pick_best {n : Nat} (hn : n ≤ NUM_FREQ) {optimal suboptimal : Slot} {U : Nat → Nat → Prop}
    (hoptimal : Best better (fun j freq => U j freq ∧ side freq = true) n optimal)
    (hsuboptimal : Best worse (fun j freq => U j freq ∧ side freq = false) n suboptimal)
    (hlt : ∀ j freq, U j freq → j < n) (hsome : ∃ j freq, U j freq) :
    ∃ index freq, (if optimal.index > n then
          if suboptimal.index > n then none else some suboptimal.index
        else some optimal.index) = some index ∧ U index freq ∧
      (side freq = true ∧ (∀ j freq', U j freq' → side freq' = true → better freq freq' = true) ∨
       (∀ j freq', U j freq' → side freq' = false ∧ worse freq freq' = true)) := by
  unfold NUM_FREQ at hn
  rcases hoptimal with ⟨hindex, hnone, _⟩ | ⟨hindex, hU, hbest⟩
  -- No entry on the good side: all are on the other one.
  · have hside : ∀ j freq, U j freq → side freq = false := by
      intro j freq hU
      have := hnone j freq (hlt j freq hU)
      simpa [hU] using this
    rcases hsuboptimal with ⟨_, hnone', _⟩ | ⟨hindex', hU', hbest'⟩
    · obtain ⟨j, freq, hU⟩ := hsome
      exact absurd ⟨hU, hside j freq hU⟩ (hnone' j freq (hlt j freq hU))
    refine ⟨suboptimal.index, suboptimal.frequency, ?_, hU'.1, .inr ?_⟩
    · rw [if_pos (by omega), if_neg (by omega)]
    intro j freq hU
    exact ⟨hside j freq hU, hbest' j freq (hlt j freq hU) ⟨hU, hside j freq hU⟩⟩
  refine ⟨optimal.index, optimal.frequency, ?_, hU.1, .inl ⟨hU.2, ?_⟩⟩
  · rw [if_neg (by omega)]
  intro j freq' hU' hside
  exact hbest j freq' (hlt j freq' hU') ⟨hU', hside⟩

end loop

/-- **Main theorem.** If and only if an enabled, valid entry is within the limits of the
policy, the look-up succeeds with such an entry: the lowest at or
above the target for `CPUFREQ_RELATION_L`, or else the highest, and the
highest at or below the target for `CPUFREQ_RELATION_H`, or else the
lowest. -/
theorem target_finds_best (table : FrequencyTable) (hlen : table.entries.length ≤ NUM_FREQ)
    (enabled_freqs : Nat → Int) (policy : Policy) (target_freq relation : Nat)
    (hrelation : relation = CPUFREQ_RELATION_L ∨ relation = CPUFREQ_RELATION_H) :
    (∃ index freq,
      cpufreq_frequency_table_target policy table enabled_freqs target_freq relation = some index ∧
      Usable policy table enabled_freqs index freq ∧
      (relation = CPUFREQ_RELATION_L →
        target_freq ≤ freq ∧ (∀ j freq', Usable policy table enabled_freqs j freq' →
          target_freq ≤ freq' → freq ≤ freq') ∨
        ∀ j freq', Usable policy table enabled_freqs j freq' → freq' < target_freq ∧ freq' ≤ freq) ∧
      (relation = CPUFREQ_RELATION_H →
        freq ≤ target_freq ∧ (∀ j freq', Usable policy table enabled_freqs j freq' →
          freq' ≤ target_freq → freq' ≤ freq) ∨
        ∀ j freq', Usable policy table enabled_freqs j freq' → target_freq < freq' ∧ freq ≤ freq')) ↔
      ∃ i freq, Usable policy table enabled_freqs i freq := by
  refine ⟨fun ⟨index, freq, _, husable, _⟩ => ⟨index, freq, husable⟩, fun hsome => ?_⟩
  have hlt : ∀ j freq, Usable policy table enabled_freqs j freq → j < table.entries.length :=
    fun j freq husable => (List.getElem?_eq_some_iff.mp husable.1).1
  rcases hrelation with rfl | rfl
  · obtain ⟨hoptimal, hsuboptimal⟩ := target_loop_best policy table enabled_freqs target_freq
      CPUFREQ_RELATION_L comparison_at_most comparison_at_least (offers_L policy enabled_freqs target_freq)
      table.entries 0 rfl ⟨0xffffffff, 0xffffffff⟩ ⟨0xffffffff, 0⟩
      (.inl ⟨rfl, by simp, by simp [at_most]; omega⟩)
      (.inl ⟨rfl, by simp, by simp [at_least]⟩)
    rw [Nat.zero_add] at hoptimal hsuboptimal
    obtain ⟨index, freq, hindex, husable, hbest⟩ := pick_best hlen hoptimal hsuboptimal hlt hsome
    refine ⟨index, freq, hindex, husable, fun _ => ?_, (fun hcon => by cases hcon)⟩
    simpa [at_most, at_least] using hbest
  obtain ⟨hoptimal, hsuboptimal⟩ := target_loop_best policy table enabled_freqs target_freq
    CPUFREQ_RELATION_H comparison_at_least comparison_at_most (offers_H policy enabled_freqs target_freq)
    table.entries 0 rfl ⟨0xffffffff, 0⟩ ⟨0xffffffff, 0xffffffff⟩
    (.inl ⟨rfl, by simp, by simp [at_least]⟩)
    (.inl ⟨rfl, by simp, by simp [at_most]; omega⟩)
  rw [Nat.zero_add] at hoptimal hsuboptimal
  obtain ⟨index, freq, hindex, husable, hbest⟩ := pick_best hlen hoptimal hsuboptimal hlt hsome
  refine ⟨index, freq, hindex, husable, (fun hcon => by cases hcon), fun _ => ?_⟩
  simpa [at_most, at_least] using hbest

/-- A table with two frequencies. -/
def two_frequencies : FrequencyTable := ⟨[1000000, 800000], by decide⟩

/-- The higher frequency for a target between the two. -/
theorem target_finds_best_above : ∃ index freq,
    cpufreq_frequency_table_target ⟨800000, 1000000, 800000, 1000000⟩ two_frequencies (fun _ => 1)
        900000 CPUFREQ_RELATION_L = some index ∧
      Usable ⟨800000, 1000000, 800000, 1000000⟩ two_frequencies (fun _ => 1) index freq := by
  obtain ⟨index, freq, hindex, husable, _⟩ := (target_finds_best two_frequencies (by decide)
    (fun _ => 1) ⟨800000, 1000000, 800000, 1000000⟩ 900000 CPUFREQ_RELATION_L (.inl rfl)).mpr
    ⟨0, 1000000, by decide, by decide⟩
  exact ⟨index, freq, hindex, husable⟩

/-- A policy for the higher frequency only passes the verification although
that frequency is not enabled; the look-up then fails. -/
theorem verified_policy_without_frequency :
    let policy : Policy := ⟨1000000, 1000000, 800000, 1000000⟩
    let enabled_freqs : Nat → Int := fun i => if i = 1 then 1 else 0
    cpufreq_frequency_table_verify policy two_frequencies = policy ∧
      two_frequencies.entries[1]? = some 800000 ∧ enabled_freqs 1 ≠ 0 ∧
      cpufreq_frequency_table_target policy two_frequencies enabled_freqs 1000000
        CPUFREQ_RELATION_L = none := by
  decide

end Nubernel.Cpufreq
