import Nubernel.Battery.Charging

/-! # battery: the protection against overcharging

`s3c_get_chg_current` counts the runs above `OVER_CHARGE_COND_VOLTAGE` in
the same variable in which it counts the runs with the current of a full battery, and where the current
is higher than that it sets the variable back. So whether the battery is
marked full depends on the currents that were read, and with high currents
the protection never takes effect.
-/

open LTS

namespace Nubernel.Battery

/-! ## The count -/

/-- A run has left the charger on, with a cable, at a voltage that is too high. -/
structure Overcharging (c : Chg) : Prop where
  charging : c.charging = true
  cable : c.cable_status ≠ .NONE
  vcell : OVER_CHARGE_COND_VOLTAGE < c.batt_vcell

instance (c : Chg) : Decidable (Overcharging c) :=
  decidable_of_iff (c.charging = true ∧ c.cable_status ≠ .NONE ∧
      OVER_CHARGE_COND_VOLTAGE < c.batt_vcell)
    ⟨fun h => ⟨h.1, h.2.1, h.2.2⟩, fun h => ⟨h.charging, h.cable, h.vcell⟩⟩

/-- At the voltage `vcell` the current is that of a full battery. -/
def LooksFull (cfg : Config) (r : Readings) (vcell : Nat) : Prop :=
  cfg.charge_full_voltage < vcell ∧ r.chg_current < cfg.charge_full_current

instance (cfg : Config) (r : Readings) (vcell : Nat) : Decidable (LooksFull cfg r vcell) := by
  unfold LooksFull
  infer_instance

section functions
variable (cfg : Config) (r : Readings) (c : Chg)

/-- The mark is a reason not to charge. -/
theorem discharge_reason_full (hfull : c.batt_is_full = true) :
    (s3c_bat_discharge_reason cfg r c).dis_reason ≠ 0 := by
  have hclear := clear_reasons_frame cfg { c with batt_vcell := r.voltage.getD c.batt_vcell }
  apply check_time_reason
  unfold set_reasons
  rw [if_pos (hclear.same.full.trans hfull)]
  intro hzero
  -- `DISCONNECT_BAT_FULL` is one of the bits that were set.
  have hbit := (BitVec.or_eq_zero_iff.mp (BitVec.or_eq_zero_iff.mp hzero).1).2
  exact absurd hbit (by decide)

/-- If the charger is on afterwards, nothing spoke against it, and neither
count nor mark was touched. -/
theorem cable_update_on (h : (s3c_cable_status_update r c).2.charging = true) :
    c.dis_reason = 0 ∧ (s3c_cable_status_update r c).1 = r.control ∧
    SameCount c (s3c_cable_status_update r c).2 ∧
    (s3c_cable_status_update r c).2.batt_vcell = c.batt_vcell := by
  have hreason : c.dis_reason = 0 := by
    by_contra hne
    rw [cable_update_charging r c hne] at h
    cases h
  refine ⟨hreason, ?_⟩
  obtain ⟨hdock, hdis⟩ := dock_attach_frame r c
  unfold s3c_cable_status_update at h ⊢
  split at h
  · rename_i hvdc
    rw [if_pos hvdc]
    simp only [hdis, hreason, ne_eq, not_true_eq_false, if_false] at h ⊢
    have hframe := hdock.trans (set_discharging_time_frame r (dock_attach r c))
    split
    · exact ⟨trivial, ⟨hframe.same.count, hframe.same.full⟩, hframe.vcell⟩
    · exact ⟨trivial, ⟨hframe.same.count, hframe.same.full⟩, hframe.vcell⟩
  -- Without the cable the charger is off.
  have hoff := (dock_detach_kept r { c with charging := false }).2.1
  split at h
  · rw [hoff] at h
    cases h
  rw [show (_ : Chg).charging = _ from hoff] at h
  cases h

/-- What the readings of a run at a voltage above the limit make of the count,
and whether they mark the battery: it is counted once for the voltage, and
once more if the current is low; otherwise the count is set back. -/
def tally (low : Bool) (count : Nat) : Nat × Bool :=
  let counted := if count + 1 > CHG_CURRENT_COUNT then (0, true) else (count + 1, false)
  if low then
    if counted.1 + 1 > CHG_CURRENT_COUNT then (0, true) else (counted.1 + 1, counted.2)
  else
    (0, counted.2)

theorem count_full_spec :
    count_full c = { c with
      batt_is_full := c.batt_is_full || decide (c.count + 1 > CHG_CURRENT_COUNT)
      set_batt_full := c.set_batt_full || decide (c.count + 1 > CHG_CURRENT_COUNT)
      count := if c.count + 1 > CHG_CURRENT_COUNT then 0 else c.count + 1 } := by
  unfold count_full
  by_cases h : c.count + 1 > CHG_CURRENT_COUNT
  · simp [h]
  · simp [h]

/-- A run that reads the current while the voltage is too high. -/
theorem get_chg_current_tally (hterm : 0 < cfg.termination_curr_adc) (h : Overcharging c)
    (hfull : c.batt_is_full = false) :
    ((s3c_get_chg_current cfg r c).count, (s3c_get_chg_current cfg r c).batt_is_full) =
      tally (LooksFull cfg r c.batt_vcell) c.count := by
  have hon : c.charging = true ∧ c.cable_status ≠ .NONE := ⟨h.charging, h.cable⟩
  have hover : c.batt_vcell > OVER_CHARGE_COND_VOLTAGE := h.vcell
  unfold s3c_get_chg_current check_overcharge
  rw [if_pos hon, if_neg (by omega), if_pos hover, count_full_spec]
  unfold check_current
  by_cases hlow : cfg.charge_full_voltage < c.batt_vcell ∧ r.chg_current < cfg.charge_full_current
  · have hlooks : LooksFull cfg r c.batt_vcell := hlow
    rw [if_pos hlow, count_full_spec]
    simp only [hfull, tally, hlooks, decide_true, if_true, Bool.false_or]
    by_cases hcount : c.count + 1 > CHG_CURRENT_COUNT
    · simp [hcount, show CHG_CURRENT_COUNT ≠ 0 by decide]
    rw [if_neg hcount, if_neg hcount]
    by_cases htwice : c.count + 1 + 1 > CHG_CURRENT_COUNT
    · simp [htwice]
    · simp [htwice, hcount]
  have hlooks : ¬LooksFull cfg r c.batt_vcell := hlow
  rw [if_neg hlow]
  simp only [hfull, tally, hlooks, decide_false, Bool.false_or]
  by_cases hcount : c.count + 1 > CHG_CURRENT_COUNT
  · simp [hcount]
  · simp [hcount]

/-- A run begins with checks that do not count. -/
theorem bat_work_checks : ∃ c₁, (s3c_bat_check_v_f r.adc_vf (s3c_get_bat_temp cfg r.temp c)).2 = c₁ ∧
    SameCount c c₁ ∧ c₁.batt_vcell = c.batt_vcell := by
  have htemp : SameCount c (s3c_get_bat_temp cfg r.temp c) := ⟨rfl, rfl⟩
  obtain ⟨_, _, hvf, hvcell⟩ := check_v_f_kept (s3c_get_bat_temp cfg r.temp c) r.adc_vf
  exact ⟨_, rfl, htemp.trans hvf, hvcell⟩

/-- **A run that overcharges.** Before it the battery was not marked full; if
the charger was programmed, the readings were counted. -/
theorem bat_work_overcharging (hterm : 0 < cfg.termination_curr_adc)
    (h : Overcharging (s3c_bat_work cfg r c)) :
    c.batt_is_full = false ∧
    (s3c_bat_work cfg r c).batt_vcell = r.voltage.getD c.batt_vcell ∧
    ((s3c_bat_work cfg r c).count, (s3c_bat_work cfg r c).batt_is_full) =
      if r.control then tally (LooksFull cfg r (r.voltage.getD c.batt_vcell)) c.count
      else (c.count, false) := by
  obtain ⟨c₁, hc₁, hsame, hvcell⟩ := bat_work_checks cfg r c
  unfold s3c_bat_work at h ⊢
  simp only [hc₁] at h ⊢
  obtain ⟨_, hsame₁, hvcell₁⟩ := discharge_reason_frame cfg r c₁
  have hreason := discharge_reason_full cfg r c₁
  have hcable := cable_update_on r (s3c_bat_discharge_reason cfg r c₁)
  generalize s3c_bat_discharge_reason cfg r c₁ = c₂ at *
  generalize s3c_cable_status_update r c₂ = u at *
  -- The charger was on after the cable was looked at.
  have hon : u.2.charging = true := by
    have hcharging := h.charging
    split at hcharging
    · rwa [(get_chg_current_untouched cfg r u.2).charging] at hcharging
    · exact hcharging
  obtain ⟨hzero, hok, hsame₂, hvcell₂⟩ := hcable hon
  have hfull : c₁.batt_is_full = false := by
    by_contra hne
    exact hreason (by simpa using hne) hzero
  have hall := (hsame.trans hsame₁).trans hsame₂
  have hv : u.2.batt_vcell = r.voltage.getD c.batt_vcell := by
    rw [hvcell₂, hvcell₁, hvcell]
  have hc : c.batt_is_full = false := by rw [← hsame.full, hfull]
  rw [hok] at h ⊢
  by_cases hcontrol : r.control = true
  · rw [if_pos hcontrol] at h
    simp only [if_pos hcontrol]
    have hcur := get_chg_current_untouched cfg r u.2
    have hover : Overcharging u.2 := ⟨hon, hcur.cable ▸ h.cable, hcur.vcell ▸ h.vcell⟩
    have htally := get_chg_current_tally cfg r u.2 hterm hover (hall.full.trans hc)
    refine ⟨hc, hcur.vcell.trans hv, ?_⟩
    rw [htally, hv, hall.count]
  simp only [if_neg hcontrol]
  exact ⟨hc, hv, by rw [hall.count, hall.full, hc]⟩

/-- A battery that is marked full is not charged after the next run. -/
theorem bat_work_full (hfull : c.batt_is_full = true) :
    (s3c_bat_work cfg r c).charging = false := by
  obtain ⟨c₁, hc₁, hsame, _⟩ := bat_work_checks cfg r c
  unfold s3c_bat_work
  simp only [hc₁]
  have hoff := cable_update_charging r (s3c_bat_discharge_reason cfg r c₁)
    (discharge_reason_full cfg r c₁ (hsame.full.trans hfull))
  split
  · rw [(get_chg_current_untouched cfg r _).charging, hoff]
  · exact hoff

theorem get_chg_current_count (h : c.count ≤ CHG_CURRENT_COUNT) :
    (s3c_get_chg_current cfg r c).count ≤ CHG_CURRENT_COUNT := by
  have hcount : ∀ c : Chg, (count_full c).count ≤ CHG_CURRENT_COUNT := by
    intro c
    unfold count_full
    split
    · exact Nat.zero_le _
    rename_i hle
    exact Nat.le_of_not_lt hle
  unfold s3c_get_chg_current
  split
  · simp only
    split
    · exact h
    unfold check_current
    split
    · exact hcount _
    · exact Nat.zero_le _
  exact Nat.zero_le _

theorem bat_work_count (h : c.count ≤ CHG_CURRENT_COUNT) :
    (s3c_bat_work cfg r c).count ≤ CHG_CURRENT_COUNT := by
  obtain ⟨c₁, hc₁, hsame, _⟩ := bat_work_checks cfg r c
  unfold s3c_bat_work
  simp only [hc₁]
  have hkept : (s3c_cable_status_update r (s3c_bat_discharge_reason cfg r c₁)).2.count = c.count := by
    rw [(cable_update_kept r _).2, (discharge_reason_frame cfg r c₁).2.1.count, hsame.count]
  split
  · exact get_chg_current_count cfg r _ (hkept ▸ h)
  · exact hkept ▸ h

end functions

/-! ## Consecutive runs -/

/-- The next run of `s3c_bat_work`, with whatever else happens before it. -/
def NextRun (cfg : Config) (s : State) (r : Readings) (s' : State) : Prop :=
  ∃ ls t, (∀ r', .work r' ∉ ls) ∧ (system cfg).Steps s ls t ∧ (system cfg).step t (.work r) s'

section runs
variable {cfg : Config} {s s' t : State} {r : Readings} {l : Label} {ls : List Label}

theorem count_le_of_reachable (h : (system cfg).Reachable s) :
    s.chg.count ≤ CHG_CURRENT_COUNT := by
  refine System.invariant (P := fun s => s.chg.count ≤ CHG_CURRENT_COUNT) ?_ ?_ h
  · intro s hinit
    cases hinit
    exact Nat.zero_le _
  intro s l s' hle hstep
  cases hstep
  match l with
  | .work r => exact bat_work_count cfg r s.chg hle
  | .topoff adc_vf =>
    have hvf := (check_v_f_kept s.chg adc_vf).2.2.1.count
    show (topoff adc_vf s.chg).count ≤ CHG_CURRENT_COUNT
    unfold topoff
    simp only
    split
    · exact hvf ▸ hle
    · split <;> exact hvf ▸ hle
  | .use_module _ => exact hle
  | .set_slate _ => exact hle
  | .set_cable _ => exact hle

/-- A step other than a run of `s3c_bat_work` leaves count and voltage, and does
not take back that the battery is full. -/
structure Idle (s s' : State) : Prop where
  count : s'.chg.count = s.chg.count
  vcell : s'.chg.batt_vcell = s.chg.batt_vcell
  full : s.chg.batt_is_full = true → s'.chg.batt_is_full = true

theorem Idle.of_step (hwork : ∀ r, l ≠ .work r) (hstep : (system cfg).step s l s') :
    Idle s s' := by
  cases hstep
  match l with
  | .work r => exact absurd rfl (hwork r)
  | .topoff adc_vf =>
    have hvf := (check_v_f_kept s.chg adc_vf).2.2
    show Idle s { s with chg := topoff adc_vf s.chg }
    unfold topoff
    simp only
    split
    · exact ⟨hvf.1.count, hvf.2, fun hfull => hvf.1.full.trans hfull⟩
    split
    · exact ⟨hvf.1.count, hvf.2, fun _ => rfl⟩
    · exact ⟨hvf.1.count, hvf.2, fun hfull => hvf.1.full.trans hfull⟩
  | .use_module _ => exact ⟨rfl, rfl, fun hfull => hfull⟩
  | .set_slate _ => exact ⟨rfl, rfl, fun hfull => hfull⟩
  | .set_cable _ => exact ⟨rfl, rfl, fun hfull => hfull⟩

theorem Idle.of_steps (hsteps : (system cfg).Steps s ls t) (hwork : ∀ r, .work r ∉ ls) :
    Idle s t := by
  induction hsteps with
  | nil s => exact ⟨rfl, rfl, fun hfull => hfull⟩
  | @cons s _ _ l ls hstep _ ih => ?_
  have hidle := Idle.of_step (fun r hl => hwork r (hl ▸ List.mem_cons_self)) hstep
  have hrest := ih fun r hr => hwork r (List.mem_cons_of_mem _ hr)
  exact ⟨hrest.count.trans hidle.count, hrest.vcell.trans hidle.vcell,
    fun hfull => hrest.full (hidle.full hfull)⟩

/-- `bat_work_overcharging` for the next run. -/
theorem NextRun.overcharging (hterm : 0 < cfg.termination_curr_adc) (hrun : NextRun cfg s r s')
    (h : Overcharging s'.chg) :
    s.chg.batt_is_full = false ∧
    s'.chg.batt_vcell = r.voltage.getD s.chg.batt_vcell ∧
    (s'.chg.count, s'.chg.batt_is_full) =
      if r.control then tally (LooksFull cfg r (r.voltage.getD s.chg.batt_vcell)) s.chg.count
      else (s.chg.count, false) := by
  obtain ⟨ls, t, hwork, hsteps, hstep⟩ := hrun
  have hidle := Idle.of_steps hsteps hwork
  cases hstep
  obtain ⟨hfull, hvcell, hcount⟩ := bat_work_overcharging cfg r t.chg hterm h
  rw [hidle.vcell] at hvcell
  rw [hidle.vcell, hidle.count] at hcount
  refine ⟨?_, hvcell, hcount⟩
  by_contra hne
  rw [hidle.full (by simpa using hne)] at hfull
  cases hfull

theorem NextRun.charging_off (hrun : NextRun cfg s r s') (hfull : s.chg.batt_is_full = true) :
    s'.chg.charging = false := by
  obtain ⟨ls, t, hwork, hsteps, hstep⟩ := hrun
  have hidle := Idle.of_steps hsteps hwork
  cases hstep
  exact bat_work_full cfg r t.chg (hidle.full hfull)

end runs

/-- When three runs at a voltage above the limit mark the battery. The last of
them must program the charger, and so read the current; of the two before
it the last one that does must have read the current of a full battery. If
none does, it is up to the count `n` at their start. -/
def CountReached (cfg : Config) (n vcell : Nat) (r₁ r₂ r₃ : Readings) : Prop :=
  let v₁ := r₁.voltage.getD vcell
  let v₂ := r₂.voltage.getD v₁
  let v₃ := r₃.voltage.getD v₂
  r₃.control = true ∧
    if r₂.control then LooksFull cfg r₂ v₂
    else if r₁.control then LooksFull cfg r₁ v₁
    else n = 2 ∨ n = 1 ∧ LooksFull cfg r₃ v₃

/-- Count and mark after a run that programs the charger or not. -/
def tally_run (control low : Bool) (n : Nat) : Nat × Bool :=
  if control then tally low n else (n, false)

/-- The count over three runs of which the first two do not mark the battery. -/
theorem tally_three (n : Fin 3) (k₁ k₂ k₃ low₁ low₂ low₃ : Bool)
    (h₁ : (tally_run k₁ low₁ n).2 = false)
    (h₂ : (tally_run k₂ low₂ (tally_run k₁ low₁ n).1).2 = false) :
    (tally_run k₃ low₃ (tally_run k₂ low₂ (tally_run k₁ low₁ n).1).1).2 = true ↔
      k₃ = true ∧ if k₂ then low₂ = true else if k₁ then low₁ = true
        else (n : Nat) = 2 ∨ (n : Nat) = 1 ∧ low₃ = true := by
  revert n k₁ k₂ k₃ low₁ low₂ low₃
  decide

/-- **The protection against overcharging.** In three consecutive runs the
charger is on, with a cable, at a voltage above the limit. The battery is
then marked full, and the next run switches the charger off, exactly if the
current was low in the right one of these runs. -/
theorem overcharge_protection_iff (cfg : Config) (hterm : 0 < cfg.termination_curr_adc)
    (s s₁ s₂ s₃ : State) (r₁ r₂ r₃ : Readings) (h : (system cfg).Reachable s)
    (hrun₁ : NextRun cfg s r₁ s₁) (hrun₂ : NextRun cfg s₁ r₂ s₂) (hrun₃ : NextRun cfg s₂ r₃ s₃)
    (hover₁ : Overcharging s₁.chg) (hover₂ : Overcharging s₂.chg) (hover₃ : Overcharging s₃.chg) :
    (s₃.chg.batt_is_full = true ∧
      ∀ r₄ s₄, NextRun cfg s₃ r₄ s₄ → s₄.chg.charging = false) ↔
    CountReached cfg s.chg.count s.chg.batt_vcell r₁ r₂ r₃ := by
  have hle := count_le_of_reachable h
  obtain ⟨_, hv₁, hc₁⟩ := hrun₁.overcharging hterm hover₁
  obtain ⟨hfull₁, hv₂, hc₂⟩ := hrun₂.overcharging hterm hover₂
  obtain ⟨hfull₂, _, hc₃⟩ := hrun₃.overcharging hterm hover₃
  have hmark := tally_three ⟨s.chg.count, Nat.lt_succ_of_le hle⟩ r₁.control r₂.control r₃.control
    (LooksFull cfg r₁ (r₁.voltage.getD s.chg.batt_vcell))
    (LooksFull cfg r₂ (r₂.voltage.getD s₁.chg.batt_vcell))
    (LooksFull cfg r₃ (r₃.voltage.getD s₂.chg.batt_vcell))
  unfold tally_run at hmark
  -- The three runs are three tallies, and the charger was still on after the
  -- first two, so these have not marked the battery.
  rw [← hc₁, ← hc₂, ← hc₃, hv₁, hv₂, hv₁] at hmark
  have hiff := hmark hfull₁ hfull₂
  simp only [decide_eq_true_eq] at hiff
  unfold CountReached
  rw [← hiff]
  constructor
  · intro hboth
    exact hboth.1
  intro hfull
  exact ⟨hfull, fun r₄ s₄ hrun₄ => hrun₄.charging_off hfull⟩

/-- A run on Victory at 4.3 V. -/
def reading_high (chg_current : Nat) : Readings :=
  { reading 160 20 with voltage := some 4300000, chg_current := chg_current }

theorem NextRun.of_work (cfg : Config) (s : State) (r : Readings) :
    NextRun cfg s r (next cfg s (.work r)) :=
  ⟨[], s, fun _ => List.not_mem_nil, .nil s, rfl⟩

theorem reachable_AC : (system victory).Reachable (next victory probed (.set_cable .AC)) :=
  System.Reachable.step (s := probed) (l := .set_cable .AC) (.of_init rfl) rfl

/-- With a low current in the second run the battery is marked. -/
theorem overcharge_protection_iff_victory :
    let s := next victory probed (.set_cable .AC)
    let s₁ := next victory s (.work (reading_high 200))
    let s₂ := next victory s₁ (.work (reading_high 50))
    let s₃ := next victory s₂ (.work (reading_high 200))
    s₃.chg.batt_is_full = true := by
  intro s s₁ s₂ s₃
  have hiff := overcharge_protection_iff victory (by decide) s s₁ s₂ s₃ (reading_high 200)
    (reading_high 50) (reading_high 200) reachable_AC (.of_work victory s _) (.of_work victory s₁ _)
    (.of_work victory s₂ _) (by decide +kernel) (by decide +kernel) (by decide +kernel)
  have hreached : CountReached victory s.chg.count s.chg.batt_vcell (reading_high 200)
      (reading_high 50) (reading_high 200) :=
    ⟨rfl, by decide +kernel, by decide +kernel⟩
  exact (hiff.mpr hreached).1

/-- **The battery is overcharged.** With a high current the count is set back in
each run: after three runs at 4.3 V the battery is not marked, and the next
run leaves the charger on. -/
theorem overcharge_unnoticed : ∃ s s₁ s₂ s₃ s₄ r₁ r₂ r₃ r₄,
    0 < victory.termination_curr_adc ∧ (system victory).Reachable s ∧
    NextRun victory s r₁ s₁ ∧ NextRun victory s₁ r₂ s₂ ∧ NextRun victory s₂ r₃ s₃ ∧
    Overcharging s₁.chg ∧ Overcharging s₂.chg ∧ Overcharging s₃.chg ∧
    s₃.chg.batt_is_full = false ∧ NextRun victory s₃ r₄ s₄ ∧ s₄.chg.charging = true := by
  let s := next victory probed (.set_cable .AC)
  let s₁ := next victory s (.work (reading_high 200))
  let s₂ := next victory s₁ (.work (reading_high 200))
  let s₃ := next victory s₂ (.work (reading_high 200))
  let s₄ := next victory s₃ (.work (reading_high 200))
  exact ⟨s, s₁, s₂, s₃, s₄, _, _, _, _, by decide, reachable_AC, .of_work victory s _,
    .of_work victory s₁ _, .of_work victory s₂ _, by decide +kernel, by decide +kernel,
    by decide +kernel, by decide +kernel, .of_work victory s₃ _, by decide +kernel⟩

end Nubernel.Battery
