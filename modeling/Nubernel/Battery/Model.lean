import Nubernel.Framework.System

/-! # battery: the charger of the S5PC110

Model of `drivers/power/s5pc110_battery.c` as it is built for Victory
(`CONFIG_MACH_VICTORY`): `s3c_bat_work`, which is run every ten seconds and on
events, reads temperature and identification of the battery, keeps the
reasons for which it must not be charged, and switches the charger.

What the hardware says in a run is its `Readings`. The average of the temperature
over up to ten samples, which `calculate_average_adc` forms before, is one of them. Charge level, status for
user space, wake locks and the registers of the charger are left out; the
function that programs the charger either succeeds or fails.
-/

open LTS

namespace Nubernel.Battery

/-! ## Configuration and state -/

/-- `POWER_SUPPLY_HEALTH_*`. -/
inductive Health where
  | UNKNOWN | GOOD | OVERHEAT | DEAD | OVERVOLTAGE | UNSPEC_FAILURE | COLD
deriving DecidableEq

/-- `enum cable_type_t`. -/
inductive Cable where
  | NONE | USB | AC
deriving DecidableEq

/-- `struct s5p_batt_block_temp`. -/
structure BlockTemp where
  temp_high_block : Int
  temp_high_recover : Int
  temp_low_recover : Int
  temp_low_block : Int
  temp_high_block_lpm : Int
  temp_high_recover_lpm : Int
  temp_low_recover_lpm : Int
  temp_low_block_lpm : Int
  temp_high_event_block : Int

/-- An entry of `adc_table`. -/
structure AdcEntry where
  adc_value : Int
  temperature : Int
deriving Inhabited

/-- What the platform and the user have set. -/
structure Config where
  block_temp : BlockTemp
  adc_table : List AdcEntry
  termination_curr_adc : Int
  charge_full_voltage : Nat
  charge_full_current : Nat
  charge_recharge_voltage : Nat

def DISCONNECT_BAT_FULL : BitVec 32 := 0x1
def DISCONNECT_TEMP_OVERHEAT : BitVec 32 := 0x2
def DISCONNECT_TEMP_FREEZE : BitVec 32 := 0x4
def DISCONNECT_OVER_TIME : BitVec 32 := 0x8

def BAT_WAITING_COUNT : Nat := 2
def CHG_CURRENT_COUNT : Nat := 2
def OVER_CHARGE_COND_VOLTAGE : Nat := 4210000
def TOTAL_CHARGING_TIME : Nat := 6 * 60 * 60
def TOTAL_RECHARGING_TIME : Nat := 2 * 60 * 60

/-- The fields of `struct chg_data` that the functions below use, and their
static variables. -/
structure Chg where
  batt_temp : Int
  /-- An unsigned word. -/
  batt_temp_adc : Nat
  batt_health : Health
  chg_current_adc : Nat
  dis_reason : BitVec 32
  batt_vcell : Nat
  batt_is_full : Bool
  cable_status : Cable
  charging : Bool
  set_charge_timeout : Bool
  set_batt_full : Bool
  discharging_time : Nat
  batt_use : BitVec 32
  slate_test_mode : Bool
  lpm_charging_mode : Bool
  /-- Static in `s3c_bat_discharge_reason`. -/
  recharge_count : Nat
  /-- Static in `s3c_get_chg_current`. -/
  count : Nat

/-- What the hardware says in a run of `s3c_bat_work`. -/
structure Readings where
  /-- `s3c_read_temp`: the average of the last samples. All values are allowed here, and
  so all averages. -/
  temp : Int
  /-- The identification of the battery. -/
  adc_vf : Int
  /-- The voltage, if there is a fuel gauge. -/
  voltage : Option Nat
  /-- Seconds since boot. -/
  now : Nat
  /-- `max8998_check_vdcin(chg) == 1`. -/
  vdcin : Bool
  /-- `fsa9480_get_dock_status()`. -/
  dock : Bool
  /-- Whether `max8998_charging_control` succeeds. -/
  control : Bool
  /-- `s3c_read_chg_current`. -/
  chg_current : Nat

/-! ## The functions of the source -/

/-- The value of an `int` as an unsigned word. -/
def u32 (x : Int) : Nat := (BitVec.ofInt 32 x).toNat

/-- `temp_adc` as it is used on Atlas and Victory. -/
def temp_adc (temp : Int) : Int := (4096 - temp) / 16

/-- The search for the temperature in degrees, for at most `fuel` rounds. -/
def celsius_loop (table : List AdcEntry) (adc : Int) : Nat → Int → Int → Int
  | 0, _, _ => 0
  | fuel + 1, left_side, right_side =>
    if left_side ≤ right_side then
      let mid := (left_side + right_side) / 2
      let entry := table.getD mid.toNat default
      let above := table.getD (mid.toNat + 1) default
      -- At both ends of the table the search stops, whatever the reading is.
      if mid = 0 ∨ mid = table.length - 1 ∨ (entry.adc_value ≤ adc ∧ above.adc_value > adc) then
        entry.temperature
      else if adc - entry.adc_value > 0 then
        celsius_loop table adc fuel (mid + 1) right_side
      else
        celsius_loop table adc fuel left_side (mid - 1)
    else
      0

/-- The temperature in degrees. -/
def celsius (table : List AdcEntry) (adc : Int) : Int :=
  celsius_loop table adc (table.length + 1) 0 (table.length - 1)

/-- `temp_high_block` of a run. -/
def high_block (b : BlockTemp) (c : Chg) : Int :=
  if c.lpm_charging_mode then b.temp_high_block_lpm
  else if c.batt_use ≠ 0 then b.temp_high_event_block
  else b.temp_high_block

def high_recover (b : BlockTemp) (c : Chg) : Int :=
  if c.lpm_charging_mode then b.temp_high_recover_lpm else b.temp_high_recover

def low_recover (b : BlockTemp) (c : Chg) : Int :=
  if c.lpm_charging_mode then b.temp_low_recover_lpm else b.temp_low_recover

def low_block (b : BlockTemp) (c : Chg) : Int :=
  if c.lpm_charging_mode then b.temp_low_block_lpm else b.temp_low_block

/-- The health of the battery after its temperature was read. -/
def temp_health (b : BlockTemp) (c : Chg) (temp_curr : Int) : Health :=
  if temp_curr ≥ high_block b c then
    -- A failed identification is not overwritten by the temperature.
    if c.batt_health ≠ .OVERHEAT ∧ c.batt_health ≠ .UNSPEC_FAILURE then .OVERHEAT
    else c.batt_health
  else if temp_curr ≤ high_recover b c ∧ temp_curr ≥ low_recover b c then
    if c.batt_health = .OVERHEAT ∨ c.batt_health = .COLD then .GOOD else c.batt_health
  else if temp_curr ≤ low_block b c then
    if c.batt_health ≠ .COLD ∧ c.batt_health ≠ .UNSPEC_FAILURE then .COLD else c.batt_health
  else
    c.batt_health

def s3c_get_bat_temp (cfg : Config) (temp : Int) (c : Chg) : Chg :=
  let adc := temp_adc temp
  { c with
    batt_temp := celsius cfg.adc_table adc
    batt_temp_adc := u32 adc
    batt_health := temp_health cfg.block_temp c adc }

/-- The identification of the battery is right. -/
def vf_ok (adc_vf : Int) : Bool := decide (0 ≤ adc_vf ∧ adc_vf ≤ 50)

def s3c_bat_check_v_f (adc_vf : Int) (c : Chg) : Bool × Chg :=
  if vf_ok adc_vf then
    -- It is taken back without a look at the temperature.
    (true, if c.batt_health = .UNSPEC_FAILURE then { c with batt_health := .GOOD } else c)
  else
    (false, { c with batt_health := .UNSPEC_FAILURE })

/-- A reason that is removed only after the voltage was low for some runs. -/
def clear_after_waiting (cfg : Config) (reason : BitVec 32) (discharge_reason : BitVec 32)
    (c : Chg) : Chg :=
  if discharge_reason &&& reason ≠ 0 ∧ c.batt_vcell < cfg.charge_recharge_voltage then
    if c.recharge_count < BAT_WAITING_COUNT then
      { c with recharge_count := c.recharge_count + 1 }
    else
      -- `batt recharging`.
      { c with dis_reason := c.dis_reason &&& ~~~reason, recharge_count := 0 }
  else if discharge_reason &&& reason ≠ 0 ∧ c.batt_vcell ≥ cfg.charge_recharge_voltage then
    { c with recharge_count := 0 }
  else
    c

/-- The reasons that the temperature has removed. -/
def clear_temp (cfg : Config) (discharge_reason : BitVec 32) (c : Chg) : Chg :=
  let b := cfg.block_temp
  let c := if discharge_reason &&& DISCONNECT_TEMP_OVERHEAT ≠ 0 ∧
      c.batt_temp_adc ≤ u32 (high_recover b c) then
    { c with dis_reason := c.dis_reason &&& ~~~DISCONNECT_TEMP_OVERHEAT } else c
  if discharge_reason &&& DISCONNECT_TEMP_FREEZE ≠ 0 ∧
      c.batt_temp_adc ≥ u32 (low_recover b c) then
    { c with dis_reason := c.dis_reason &&& ~~~DISCONNECT_TEMP_FREEZE } else c

/-- The reason for which a battery that is not in good health is not charged. -/
def health_reason (health : Health) : BitVec 32 :=
  if health ≠ .GOOD then
    if health = .OVERHEAT then DISCONNECT_TEMP_OVERHEAT else DISCONNECT_TEMP_FREEZE
  else
    0

/-- The reasons that do not apply any more are removed. -/
def clear_reasons (cfg : Config) (c : Chg) : Chg :=
  -- The reasons at the start of the run decide what may be removed.
  let discharge_reason := c.dis_reason &&& 0xf
  clear_after_waiting cfg DISCONNECT_OVER_TIME discharge_reason
    (clear_temp cfg discharge_reason
      (clear_after_waiting cfg DISCONNECT_BAT_FULL discharge_reason c))

/-- Those that apply are added. -/
def set_reasons (c : Chg) : Chg :=
  { c with dis_reason := (if c.batt_is_full then c.dis_reason ||| DISCONNECT_BAT_FULL
      else c.dis_reason) ||| health_reason c.batt_health }

/-- The charging has taken too long. -/
def check_time (now : Nat) (c : Chg) : Chg :=
  if c.discharging_time ≠ 0 ∧ now > c.discharging_time then
    { c with
      set_charge_timeout := true
      dis_reason := c.dis_reason ||| DISCONNECT_OVER_TIME
      set_batt_full := true }
  else
    c

def s3c_bat_discharge_reason (cfg : Config) (r : Readings) (c : Chg) : Chg :=
  let c := { c with batt_vcell := r.voltage.getD c.batt_vcell }
  check_time r.now (set_reasons (clear_reasons cfg c))

/-- In the dock the cable is not detected otherwise. -/
def dock_attach (r : Readings) (c : Chg) : Chg :=
  if r.dock ∧ c.cable_status = .NONE then { c with cable_status := .AC } else c

def dock_detach (r : Readings) (c : Chg) : Chg :=
  if r.dock ∧ c.cable_status ≠ .NONE then { c with cable_status := .NONE } else c

/-- The time at which charging is to end. -/
def set_discharging_time (r : Readings) (c : Chg) : Chg :=
  if c.discharging_time = 0 then
    { c with discharging_time :=
        if c.set_batt_full ∨ c.set_charge_timeout then r.now + TOTAL_RECHARGING_TIME
        else r.now + TOTAL_CHARGING_TIME }
  else
    c

/-- Whether it succeeds, and the state. -/
def s3c_cable_status_update (r : Readings) (c : Chg) : Bool × Chg :=
  if r.vdcin then
    let c := dock_attach r c
    if c.dis_reason ≠ 0 then
      -- The cable is there, but the battery must not be charged.
      let c := { c with charging := false }
      if !r.control then
        (false, c)
      else
        -- A battery that was too hot or too cold has not been full.
        let hot_or_cold := c.dis_reason &&& (DISCONNECT_TEMP_OVERHEAT ||| DISCONNECT_TEMP_FREEZE)
        (true, { c with
          set_batt_full := if hot_or_cold ≠ 0 then false else c.set_batt_full
          discharging_time := 0
          batt_is_full := false })
    else
      -- Able to charge.
      let c := set_discharging_time r c
      let c := if c.slate_test_mode then { c with charging := false, cable_status := .NONE }
        else { c with charging := true }
      (r.control, c)
  else
    let c := dock_detach r { c with charging := false }
    if !r.control then
      (false, c)
    else
      -- Without a cable all is forgotten that was known about charging.
      (true, { c with
        batt_is_full := false
        set_charge_timeout := false
        set_batt_full := false
        dis_reason := 0
        discharging_time := 0 })

/-- A run in which the battery looks full. -/
def count_full (c : Chg) : Chg :=
  if c.count + 1 > CHG_CURRENT_COUNT then
    { c with batt_is_full := true, set_batt_full := true, count := 0 }
  else
    { c with count := c.count + 1 }

/-- Protection against overcharging. -/
def check_overcharge (c : Chg) : Chg :=
  if c.batt_vcell > OVER_CHARGE_COND_VOLTAGE then count_full c else c

/-- The current is that of a full battery. -/
def check_current (cfg : Config) (c : Chg) : Chg :=
  if c.batt_vcell > cfg.charge_full_voltage ∧ c.chg_current_adc < cfg.charge_full_current then
    count_full c
  else
    { c with count := 0 }

def s3c_get_chg_current (cfg : Config) (r : Readings) (c : Chg) : Chg :=
  if c.charging ∧ c.cable_status ≠ .NONE then
    let c := { c with chg_current_adc := r.chg_current }
    -- `skip`: the end of charging is not found by the current.
    if cfg.termination_curr_adc ≤ 0 then c else check_current cfg (check_overcharge c)
  else
    { c with chg_current_adc := 0, count := 0 }

def s3c_bat_work (cfg : Config) (r : Readings) (c : Chg) : Chg :=
  let c := s3c_get_bat_temp cfg r.temp c
  let c := (s3c_bat_check_v_f r.adc_vf c).2
  let c := s3c_bat_discharge_reason cfg r c
  let (ok, c) := s3c_cable_status_update r c
  -- `goto err` if the charger could not be programmed.
  if ok then s3c_get_chg_current cfg r c else c

/-- `max8998_int_work_func`, for the interrupt at the end of charging. -/
def topoff (adc_vf : Int) (c : Chg) : Chg :=
  let (ok, c) := s3c_bat_check_v_f adc_vf c
  -- An interrupt of a battery that is not identified is ignored.
  if !ok then c
  else if c.set_batt_full then { c with batt_is_full := true }
  else { c with set_batt_full := true }

/-! ## Runs of the driver -/

inductive Label where
  | work (r : Readings)
  | topoff (adc_vf : Int)
  /-- A module starts or stops using the battery. -/
  | use_module (batt_use : BitVec 32)
  /-- `slate_test_mode` is written. -/
  | set_slate (mode : Bool)
  /-- `max8998_set_cable`. -/
  | set_cable (status : Cable)

structure State where
  chg : Chg
  /-- The last run that has found the temperature at a block threshold or
  beyond has not been followed by one that has found it in the range of
  recovery. -/
  blocked : Bool

/-- The temperature of the run is at a block threshold or beyond. -/
def Blocks (cfg : Config) (c : Chg) (r : Readings) : Prop :=
  temp_adc r.temp ≤ low_block cfg.block_temp c ∨ high_block cfg.block_temp c ≤ temp_adc r.temp

/-- The temperature of the run is in the range of recovery. -/
def Recovers (cfg : Config) (c : Chg) (r : Readings) : Prop :=
  low_recover cfg.block_temp c ≤ temp_adc r.temp ∧ temp_adc r.temp ≤ high_recover cfg.block_temp c

instance (cfg : Config) (c : Chg) (r : Readings) : Decidable (Blocks cfg c r) := by
  unfold Blocks
  infer_instance

instance (cfg : Config) (c : Chg) (r : Readings) : Decidable (Recovers cfg c r) := by
  unfold Recovers
  infer_instance

/-- `blocked` after a run. -/
def blocked_after (cfg : Config) (s : State) (r : Readings) : Bool :=
  if Blocks cfg s.chg r then true else if Recovers cfg s.chg r then false else s.blocked

def next (cfg : Config) (s : State) : Label → State
  | .work r => ⟨s3c_bat_work cfg r s.chg, blocked_after cfg s r⟩
  | .topoff adc_vf => { s with chg := topoff adc_vf s.chg }
  | .use_module batt_use => { s with chg := { s.chg with batt_use := batt_use } }
  | .set_slate mode => { s with chg := { s.chg with slate_test_mode := mode } }
  | .set_cable status => { s with chg := { s.chg with cable_status := status } }

/-- The state after `max8998_charger_probe`, not in the mode for charging
while switched off. -/
def probed : State where
  chg :=
    { batt_temp := 0
      batt_temp_adc := 0
      batt_health := .GOOD
      chg_current_adc := 0
      dis_reason := 0
      batt_vcell := 0
      batt_is_full := false
      cable_status := .NONE
      charging := false
      set_charge_timeout := false
      set_batt_full := false
      discharging_time := 0
      batt_use := 0
      slate_test_mode := false
      lpm_charging_mode := false
      recharge_count := 0
      count := 0 }
  blocked := false

def system (cfg : Config) : System State Label :=
  System.ofFun (fun s => s = probed) fun s l => some (next cfg s l)

end Nubernel.Battery
