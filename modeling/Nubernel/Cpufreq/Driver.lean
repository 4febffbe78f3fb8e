import Nubernel.Cpufreq.Table
import Nubernel.Framework.System

/-! # cpufreq: the driver of the S5PV210

Model of `arch/arm/mach-s5pv210/cpu-freq.c`. The CPU runs at one of
eleven levels. A level needs a voltage for the ARM core, lowered by what
the user has written to `exp_UV_mV`, and one for the internal logic.
`s5pv210_cpufreq_target` looks a level up, applies the limit of the DVFS
tokens and changes voltages and clock; it raises the voltages before and
lowers them after the change of the clock, as the order of the frequencies
tells.

The clock of the ARM core is that of the APLL, divided; both are part of
the state, and `s5pv210_cpufreq_getspeed` computes the frequency from them
as `clk_get_rate` does. The APLL is set only if `fclk` of the new level
differs from that of the last one. The refresh counters of the memory
controllers and the other dividers are left out.
-/

open Function LTS

namespace Nubernel.Cpufreq

/-! ## The tables -/

def freq_table : FrequencyTable :=
  ⟨[1400000, 1316000, 1200000, 1128000, 1000000, 900000, 800000, 600000, 400000, 200000, 100000],
    by decide⟩

/-- `freq_table[index].frequency`. -/
def frequency (index : Nat) : Nat := freq_table.entries.getD index CPUFREQ_TABLE_END

/-- `dvs_conf[index].arm_volt`. -/
def dvs_conf_arm_volt (index : Nat) : Nat :=
  [1450000, 1400000, 1350000, 1300000, 1275000, 1225000, 1200000, 1175000, 1050000, 950000,
    950000].getD index 0

/-- `dvs_conf[index].int_volt`. -/
def dvs_conf_int_volt (index : Nat) : Nat :=
  [1250000, 1200000, 1150000, 1125000, 1100000, 1100000, 1100000, 1100000, 1100000, 1100000,
    1000000].getD index 0

/-- `clkdiv_val[index][0]`, the divider of the APLL. -/
def clkdiv_val_APLL (index : Nat) : Nat := [0, 0, 0, 0, 0, 0, 0, 1, 1, 3, 7].getD index 0

/-- `clk_info[index].fclk`. -/
def clk_info_fclk (index : Nat) : Nat :=
  [1400000, 1316000, 1200000, 1128000, 1000000, 900000, 800000, 800000, 800000, 800000,
    800000].getD index 0

/-- The frequency that `s5pv210_cpufreq_clksrcs_MPLL2APLL` sets the APLL to. -/
def apll_fout (index : Nat) : Nat :=
  [1400000, 1316000, 1200000, 1128000, 1000000, 900000, 800000, 600000].getD index 800000

def L4 : Nat := 4
def L6 : Nat := 6
def MAX_PERF_LEVEL : Nat := 10
def DVFS_LOCK_TOKEN_NUM : Nat := 9
def SLEEP_FREQ : Nat := 800000

def DISABLE_FURTHER_CPUFREQ : Nat := 0x10
def ENABLE_FURTHER_CPUFREQ : Nat := 0x20
def MASK_FURTHER_CPUFREQ : Nat := 0x30

/-! ## The state -/

/-- What does not change while the driver runs: the undervolt table, and
whether both regulators were found. -/
structure Config where
  exp_UV_mV : Nat → Int
  regulators : Bool

structure Cpu where
  /-- The level that the clock was last set to. -/
  level : Nat
  apll : Nat
  apll_div : Nat
  /-- The voltages that were last set. -/
  arm_volt : Nat
  int_volt : Nat
  /-- `s3c_freqs.old.fclk`. -/
  old_fclk : Nat
  first_run : Bool
  no_cpufreq_access : Bool
  /-- The bits of `g_dvfs_high_lock_token`. -/
  g_dvfs_high_lock_token : Nat → Bool
  g_dvfs_high_lock_limit : Nat
  g_dvfslockval : Nat → Nat

/-- `dvs_conf[index].arm_volt - (exp_UV_mV[index] * 1000)` as an unsigned int. -/
def Config.arm_volt (cfg : Config) (index : Nat) : Nat :=
  (((dvs_conf_arm_volt index : Int) - cfg.exp_UV_mV index * 1000) % 2 ^ 32).toNat

/-- The APLL, divided. -/
def s5pv210_cpufreq_getspeed (s : Cpu) : Nat := s.apll / (s.apll_div + 1)

/-- `g_dvfs_high_lock_token != 0`. -/
def tokens_held (s : Cpu) : Bool := (List.range DVFS_LOCK_TOKEN_NUM).any s.g_dvfs_high_lock_token

/-! ## Changing the level -/

/-- A call of `s5pv210_cpufreq_target`, with the tables it reads, and whether
the regulators accept the voltages it sets. -/
structure Call where
  policy : Policy
  enabled_freqs : Nat → Int
  target_freq : Nat
  relation : Nat
  arm_ok : Bool
  int_ok : Bool

/-- What a call returns, and the states that it passes through. -/
structure Outcome where
  ret : Option Errno
  states : List Cpu

/-- The writes to the dividers and the PLL. -/
def write_clock (s : Cpu) (index : Nat) : Cpu :=
  { s with
    level := index
    apll_div := clkdiv_val_APLL index
    apll := if clk_info_fclk index ≠ s.old_fclk ∨ s.first_run = true then apll_fout index else s.apll }

/-- The bookkeeping at the end of a call. -/
def level_changed (s : Cpu) (index : Nat) : Cpu :=
  { s with old_fclk := clk_info_fclk index, first_run := false }

/-- Voltages up, ARM first, then the clock. -/
def raise_level (cfg : Config) (s : Cpu) (c : Call) (index : Nat) : Outcome :=
  if cfg.regulators then
    if c.arm_ok then
      let s₁ := { s with arm_volt := cfg.arm_volt index }
      -- The ARM voltage stays up when this one is refused.
      if c.int_ok then
        let s₂ := { s₁ with int_volt := dvs_conf_int_volt index }
        let s₃ := write_clock s₂ index
        ⟨none, [s₁, s₂, s₃, level_changed s₃ index]⟩
      else
        ⟨some .EINVAL, [s₁]⟩
    else
      ⟨some .EINVAL, []⟩
  else
    let s₃ := write_clock s index
    ⟨none, [s₃, level_changed s₃ index]⟩

/-- The clock, then voltages down, INT first; that this may fail is ignored. -/
def lower_level (cfg : Config) (s : Cpu) (c : Call) (index : Nat) : Outcome :=
  let s₁ := write_clock s index
  if cfg.regulators then
    let s₂ := if c.int_ok then { s₁ with int_volt := dvs_conf_int_volt index } else s₁
    let s₃ := if c.arm_ok then { s₂ with arm_volt := cfg.arm_volt index } else s₂
    ⟨none, [s₁, s₂, s₃, level_changed s₃ index]⟩
  else
    ⟨none, [s₁, level_changed s₁ index]⟩

/-- The part of `s5pv210_cpufreq_target` after the level was found. -/
def change_level (cfg : Config) (s : Cpu) (c : Call) (index : Nat) : Outcome :=
  -- At the first call the registers are written in any case.
  if frequency index = s5pv210_cpufreq_getspeed s ∧ s.first_run = false then
    ⟨none, []⟩
  else if frequency index ≥ s5pv210_cpufreq_getspeed s then
    raise_level cfg s c index
  else
    lower_level cfg s c index

/-- The limit of the tokens, applied to the level that was found. -/
def apply_dvfs_limit (s : Cpu) (index : Nat) : Nat :=
  if tokens_held s = true ∧ index > s.g_dvfs_high_lock_limit then s.g_dvfs_high_lock_limit else index

/-- Both marks cancel out. -/
def effective_relation (relation : Nat) : Nat :=
  if relation &&& ENABLE_FURTHER_CPUFREQ ≠ 0 ∧ relation &&& DISABLE_FURTHER_CPUFREQ ≠ 0 then
    relation ^^^ MASK_FURTHER_CPUFREQ
  else
    relation

/-- `no_cpufreq_access` after the mark that enables further calls. -/
def enable_access (s : Cpu) (relation : Nat) : Cpu :=
  if relation &&& ENABLE_FURTHER_CPUFREQ ≠ 0 then { s with no_cpufreq_access := false } else s

def disable_access (s : Cpu) (relation : Nat) : Cpu :=
  if relation &&& DISABLE_FURTHER_CPUFREQ ≠ 0 then { s with no_cpufreq_access := true } else s

/-- The level that a call which is not denied is to change to. -/
def find_level (s : Cpu) (c : Call) (relation : Nat) : Option Nat :=
  (cpufreq_frequency_table_target c.policy freq_table c.enabled_freqs c.target_freq
    (relation &&& (0xffffffff ^^^ MASK_FURTHER_CPUFREQ))).map (apply_dvfs_limit s)

/-- A call that is not denied. -/
def serve (cfg : Config) (s : Cpu) (c : Call) (relation : Nat) : Outcome :=
  -- The mark counts even if no level is found.
  let s := disable_access s relation
  match find_level s c relation with
  | none => ⟨some .EINVAL, [s]⟩
  | some index => ⟨(change_level cfg s c index).ret, s :: (change_level cfg s c index).states⟩

def s5pv210_cpufreq_target (cfg : Config) (s : Cpu) (c : Call) : Outcome :=
  let relation := effective_relation c.relation
  let s := enable_access s relation
  if s.no_cpufreq_access then ⟨some .EINVAL, [s]⟩ else serve cfg s c relation

/-! ## Tokens and suspend -/

/-- Levels above `MAX_PERF_LEVEL - 1` are not accepted. -/
def s5pv210_lock_dvfs_high_level (s : Cpu) (nToken perf_level : Nat) : Cpu :=
  -- A token that is held keeps its level.
  if s.g_dvfs_high_lock_token nToken = true ∨ perf_level > MAX_PERF_LEVEL - 1 then
    s
  else
    { s with
      g_dvfs_high_lock_token := update s.g_dvfs_high_lock_token nToken true
      g_dvfslockval := update s.g_dvfslockval nToken perf_level
      g_dvfs_high_lock_limit :=
        if perf_level < s.g_dvfs_high_lock_limit then perf_level else s.g_dvfs_high_lock_limit }

def s5pv210_unlock_dvfs_high_level (s : Cpu) (nToken : Nat) : Cpu :=
  let s := { s with
    g_dvfs_high_lock_token := update s.g_dvfs_high_lock_token nToken false
    g_dvfslockval := update s.g_dvfslockval nToken MAX_PERF_LEVEL
    g_dvfs_high_lock_limit := MAX_PERF_LEVEL }
  -- The limit of the tokens that are left.
  if tokens_held s then
    { s with
      g_dvfs_high_lock_limit := (List.range DVFS_LOCK_TOKEN_NUM).foldl
        (fun limit i => if s.g_dvfslockval i < limit then s.g_dvfslockval i else limit)
        s.g_dvfs_high_lock_limit }
  else
    s

inductive PmEvent where
  | PM_SUSPEND_PREPARE | PM_POST_RESTORE | PM_POST_SUSPEND
  deriving DecidableEq, Repr

inductive Notify where
  | NOTIFY_OK | NOTIFY_BAD
  deriving DecidableEq, Repr

/-- What the notifier meets: the policy if `cpufreq_cpu_get` finds it, and
whether it can be locked. -/
structure NotifierEnv where
  policy : Option Policy
  locked : Bool
  enabled_freqs : Nat → Int
  arm_ok : Bool
  int_ok : Bool

/-- The call that the notifier makes before suspend. -/
def prepare_call (env : NotifierEnv) (policy : Policy) : Call where
  policy := { policy with min := SLEEP_FREQ, max := SLEEP_FREQ }
  enabled_freqs := env.enabled_freqs
  target_freq := SLEEP_FREQ
  relation := DISABLE_FURTHER_CPUFREQ
  arm_ok := env.arm_ok
  int_ok := env.int_ok

/-- The call that it makes after suspend. -/
def post_call (env : NotifierEnv) (policy : Policy) : Call where
  policy := policy
  enabled_freqs := env.enabled_freqs
  target_freq := SLEEP_FREQ
  relation := ENABLE_FURTHER_CPUFREQ
  arm_ok := env.arm_ok
  int_ok := env.int_ok

/-- The call that the notifier gets to make. -/
def notifier_call (event : PmEvent) (env : NotifierEnv) : Option Call :=
  env.policy.bind fun policy =>
    if env.locked then
      match event with
      | .PM_SUSPEND_PREPARE => some (prepare_call env policy)
      | .PM_POST_RESTORE | .PM_POST_SUSPEND => some (post_call env policy)
    else
      none

def s5pv210_cpufreq_notifier_event (cfg : Config) (s : Cpu) (event : PmEvent) (env : NotifierEnv) :
    Notify × List Cpu :=
  match notifier_call event env with
  -- Only a suspend that cannot be prepared is refused.
  | none => (if event = .PM_SUSPEND_PREPARE then .NOTIFY_BAD else .NOTIFY_OK, [])
  | some c =>
    let o := s5pv210_cpufreq_target cfg s c
    (if event = .PM_SUSPEND_PREPARE ∧ o.ret.isSome = true then .NOTIFY_BAD else .NOTIFY_OK, o.states)

/-! ## The transition system -/

inductive Label where
  | target (c : Call)
  | lock_dvfs (nToken perf_level : Nat)
  | unlock_dvfs (nToken : Nat)
  | notifier (event : PmEvent) (env : NotifierEnv)

/-- The states that a step passes through. -/
def passed (cfg : Config) (s : Cpu) : Label → List Cpu
  | .target c => (s5pv210_cpufreq_target cfg s c).states
  | .lock_dvfs nToken perf_level => [s5pv210_lock_dvfs_high_level s nToken perf_level]
  | .unlock_dvfs nToken => [s5pv210_unlock_dvfs_high_level s nToken]
  | .notifier event env => (s5pv210_cpufreq_notifier_event cfg s event env).2

/-- Calls are serialised by `set_freq_lock`. -/
def cpu_step (cfg : Config) (s : Cpu) (l : Label) : Option Cpu := some ((passed cfg s l).getLastD s)

/-- The CPU runs at a level, supplied with the voltages of that level. -/
def at_level (cfg : Config) (index : Nat) : Cpu where
  level := index
  apll := apll_fout index
  apll_div := clkdiv_val_APLL index
  arm_volt := cfg.arm_volt index
  int_volt := dvs_conf_int_volt index
  old_fclk := clk_info_fclk index
  first_run := true
  no_cpufreq_access := false
  g_dvfs_high_lock_token := fun _ => false
  g_dvfs_high_lock_limit := NUM_FREQ
  g_dvfslockval := fun _ => MAX_PERF_LEVEL

/-- All sequences of calls. -/
def cpufreq (cfg : Config) : System Cpu Label :=
  .ofFun (fun s => ∃ index, index < NUM_FREQ ∧ s = at_level cfg index) (cpu_step cfg)

end Nubernel.Cpufreq
