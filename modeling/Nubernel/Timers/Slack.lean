import Nubernel.Timers.Model

/-! # Timer slack (kernel/timer.c)

`mod_timer` may put off a timer for some time, to the one with the most trailing zeros:
it rounds the last time down at the highest bit in which this differs from the first.
-/

open Nat

namespace Nubernel.Timers

/-! ## Model -/

/-- What `mod_timer` uses of a `struct timer_list`. -/
structure SlackTimer where
  slack : Int
  pending : Bool
  expires : Nat

def time_after (a b : Nat) : Bool := decide (2 ^ 31 ≤ sub32 b a)

/-- The first `mask` has its highest bit (`find_last_bit`) at `mask.log2`. -/
def apply_slack (timer : SlackTimer) (jiffies expires : Nat) : Nat :=
  let expires_limit :=
    if timer.slack ≥ 0 then add32 expires timer.slack.toNat
    else if time_after expires jiffies then add32 expires (sub32 expires jiffies / 256)
    else expires
  let mask := expires ^^^ expires_limit
  if mask = 0 then expires else expires_limit &&& (2 ^ 32 - 1 - (2 ^ mask.log2 - 1))

/-- The timer afterwards; `__mod_timer` queues it at `expires`. -/
def mod_timer (timer : SlackTimer) (jiffies expires : Nat) : SlackTimer :=
  if timer.pending ∧ timer.expires = expires then timer
  else { timer with pending := true, expires := apply_slack timer jiffies expires }

/-- How long a timer may be put off. -/
def SlackTimer.limit (timer : SlackTimer) (jiffies expires : Nat) : Nat :=
  if 0 ≤ timer.slack then timer.slack.toNat
  else if time_after expires jiffies then sub32 expires jiffies / 256
  else 0

/-! ## Rounding -/

section rounding
variable {e l k limit : Nat}

theorem div_eq_iff (hne : e ≠ l) : e / 2 ^ k = l / 2 ^ k ↔ (e ^^^ l).log2 < k := by
  rw [log2_lt (xor_ne_zero_iff.mpr hne), ← xor_eq_zero_iff, ← xor_div_two_pow,
    div_eq_zero_iff_lt (Nat.two_pow_pos k)]

/-- There is one multiple of `2 ^ k` up to the limit, where `k` is the bit of the mask. -/
theorem mask_spec (he : e < 2 ^ 32) (hpos : 0 < limit) (hlimit : limit < 2 ^ 31)
    (hk : k = (e ^^^ (e + limit) % 2 ^ 32).log2) :
    k < 32 ∧ (e + limit) / 2 ^ k = e / 2 ^ k + 1 ∧
      (e + limit) % 2 ^ 32 / 2 ^ k * 2 ^ k = (e + limit) / 2 ^ k * 2 ^ k % 2 ^ 32 := by
  have hbit : ∀ j, e / 2 ^ j = (e + limit) % 2 ^ 32 / 2 ^ j ↔ k < j := by
    intro j
    rw [hk]
    exact div_eq_iff (by omega)
  have hlt : k < 32 := (hbit 32).mp (by omega)
  have hdiff := mt (hbit k).mp (lt_irrefl k)
  have hhalf := (hbit (k + 1)).mpr (lt_succ_self k)
  rw [pow_succ, ← Nat.div_div_eq_div_mul, ← Nat.div_div_eq_div_mul] at hhalf
  by_cases hwrap : e + limit < 2 ^ 32
  · rw [mod_eq_of_lt hwrap] at hdiff hhalf ⊢
    have hle : e / 2 ^ k ≤ (e + limit) / 2 ^ k := Nat.div_le_div_right (by omega)
    have hround := div_mul_le_self (e + limit) (2 ^ k)
    exact ⟨hlt, by omega, (mod_eq_of_lt (by omega)).symm⟩
  -- The first time has the highest bit and the limit has not.
  have htop : ¬k < 31 := fun h => by
    have := (hbit 31).mpr h
    omega
  obtain rfl : k = 31 := by omega
  exact ⟨hlt, by omega, by omega⟩

end rounding

/-- The times that `apply_slack` chooses from. -/
def Slack (e limit r : Nat) : Prop :=
  sub32 r e ≤ limit ∧ (r ≠ e → ∀ t < 2 ^ 32, 0 < sub32 t e → sub32 t e ≤ limit → t ≠ r →
    ∃ k < 32, 2 ^ k ∣ r ∧ ¬2 ^ k ∣ t)

theorem slack_self (e limit : Nat) : Slack e limit e := by
  refine ⟨?_, fun h => absurd rfl h⟩
  rw [show sub32 e e = 0 by unfold sub32; omega]
  exact zero_le limit

/-- `expires_limit` is rounded down. -/
theorem slack_mask {e l limit : Nat} (he : e < 2 ^ 32) (hlimit : limit < 2 ^ 31)
    (hl : l = (e + limit) % 2 ^ 32) : Slack e limit
      (if e ^^^ l = 0 then e else l &&& (2 ^ 32 - 1 - (2 ^ (e ^^^ l).log2 - 1))) := by
  subst hl
  split
  · exact slack_self ..
  rename_i hmask
  have hpos : 0 < limit := Nat.pos_of_ne_zero fun h => hmask (by
    rw [h, add_zero, mod_eq_of_lt he, Nat.xor_self])
  obtain ⟨hk, hdiv, hround⟩ := mask_spec he hpos hlimit rfl
  generalize (e ^^^ (e + limit) % 2 ^ 32).log2 = k at hk hdiv hround ⊢
  have hkpos := Nat.two_pow_pos k
  have hpow : 2 ^ k ∣ 2 ^ 32 := pow_dvd_pow 2 (by omega)
  rw [show 2 ^ 32 - 1 - (2 ^ k - 1) = 2 ^ 32 - 2 ^ k by omega, and_align_mask (by omega) (by omega),
    hround]
  have hle := div_mul_le_self (e + limit) (2 ^ k)
  have hgt : e < (e + limit) / 2 ^ k * 2 ^ k := by
    rw [hdiv]
    exact (div_lt_iff_lt_mul hkpos).mp (lt_succ_self _)
  refine ⟨by unfold sub32; omega, fun _ t ht hafter hwithin hne => ⟨k, hk, ?_, fun hdvd => hne ?_⟩⟩
  · exact (dvd_mod_iff hpow).mpr (dvd_mul_left _ _)
  -- There is only one multiple.
  have htime : t = (e + sub32 t e) % 2 ^ 32 := by
    unfold sub32
    omega
  rw [htime] at hdvd ⊢
  obtain ⟨m, hm⟩ := (dvd_mod_iff hpow).mp hdvd
  have hlow : e / 2 ^ k < m := Nat.div_lt_of_lt_mul (by omega)
  have hhigh : m ≤ (e + limit) / 2 ^ k := by
    rw [le_div_iff_mul_le hkpos, mul_comm]
    omega
  rw [hm, mul_comm, show m = (e + limit) / 2 ^ k by omega]

/-- `mod_timer` puts a timer off within its limit, to the time with the most trailing zeros. -/
theorem mod_timer_within_slack (timer : SlackTimer) (jiffies : Nat) {expires : Nat}
    (hslack : timer.slack < 2 ^ 31) (hexpires : expires < 2 ^ 32) :
    (mod_timer timer jiffies expires).pending = true ∧
      Slack expires (timer.limit jiffies expires) (mod_timer timer jiffies expires).expires := by
  unfold mod_timer
  split
  · rename_i hsame
    exact ⟨hsame.1, hsame.2 ▸ slack_self ..⟩
  have := sub32_lt expires jiffies
  refine ⟨rfl, slack_mask hexpires ?_ ?_⟩
  · unfold SlackTimer.limit
    split_ifs <;> omega
  unfold SlackTimer.limit add32
  split_ifs <;> omega

/-- A slack of 3 across the end of the words. -/
theorem mod_timer_within_slack_wraps : Slack (2 ^ 32 - 2) 3
    (mod_timer ⟨3, false, 0⟩ 0 (2 ^ 32 - 2)).expires :=
  (mod_timer_within_slack ⟨3, false, 0⟩ 0 (by decide) (by decide)).2

end Nubernel.Timers
