import Nubernel.Battery.Model

/-! # battery: a battery that is too hot or too cold is not charged

What keeps it from being charged is `batt_health`, which the temperature
leaves alone while it is `UNSPEC_FAILURE`. The identification check sets
it to that when it fails, and to `GOOD` when it passes the next time. So the
result holds in those runs in which the check passes again only when the
temperature allows it; in others a battery that is too hot gets charged.
-/

open LTS

namespace Nubernel.Battery

/-! ## What the functions do to the health and the charger -/

/-- Health and mode are the same. -/
structure Kept (c c' : Chg) : Prop where
  health : c'.batt_health = c.batt_health
  lpm : c'.lpm_charging_mode = c.lpm_charging_mode

theorem Kept.trans {c c' c'' : Chg} (h : Kept c c') (h' : Kept c' c'') : Kept c c'' :=
  ⟨h'.health.trans h.health, h'.lpm.trans h.lpm⟩

/-- The marks of a full battery and the count are the same. -/
structure SameCount (c c' : Chg) : Prop where
  count : c'.count = c.count
  full : c'.batt_is_full = c.batt_is_full

theorem SameCount.trans {c c' c'' : Chg} (h : SameCount c c') (h' : SameCount c' c'') :
    SameCount c c'' :=
  ⟨h'.count.trans h.count, h'.full.trans h.full⟩

/-- What most functions leave alone. -/
structure Frame (c c' : Chg) : Prop where
  kept : Kept c c'
  same : SameCount c c'
  vcell : c'.batt_vcell = c.batt_vcell

theorem Frame.trans {c c' c'' : Chg} (h : Frame c c') (h' : Frame c' c'') : Frame c c'' :=
  ⟨h.kept.trans h'.kept, h.same.trans h'.same, h'.vcell.trans h.vcell⟩

section functions
variable (cfg : Config) (r : Readings) (c : Chg)

theorem clear_after_waiting_frame (reason discharge_reason : BitVec 32) :
    Frame c (clear_after_waiting cfg reason discharge_reason c) := by
  unfold clear_after_waiting
  split
  · split <;> exact ⟨⟨rfl, rfl⟩, ⟨rfl, rfl⟩, rfl⟩
  · split <;> exact ⟨⟨rfl, rfl⟩, ⟨rfl, rfl⟩, rfl⟩

theorem clear_temp_frame (discharge_reason : BitVec 32) :
    Frame c (clear_temp cfg discharge_reason c) := by
  unfold clear_temp
  simp only
  split <;> split <;> exact ⟨⟨rfl, rfl⟩, ⟨rfl, rfl⟩, rfl⟩

theorem clear_reasons_frame : Frame c (clear_reasons cfg c) :=
  ((clear_after_waiting_frame cfg c _ _).trans (clear_temp_frame cfg _ _)).trans
    (clear_after_waiting_frame cfg _ _ _)

theorem check_time_frame (now : Nat) : Frame c (check_time now c) := by
  unfold check_time
  split <;> exact ⟨⟨rfl, rfl⟩, ⟨rfl, rfl⟩, rfl⟩

/-- A reason that there is stays when the time is checked. -/
theorem check_time_reason (now : Nat) (h : c.dis_reason ≠ 0) :
    (check_time now c).dis_reason ≠ 0 := by
  unfold check_time
  split
  · intro hzero
    exact h (BitVec.or_eq_zero_iff.mp hzero).1
  exact h

theorem health_reason_ne_zero {health : Health} (h : health ≠ .GOOD) :
    health_reason health ≠ 0 := by
  unfold health_reason
  rw [if_pos h]
  split <;> decide

theorem discharge_reason_frame :
    Kept c (s3c_bat_discharge_reason cfg r c) ∧ SameCount c (s3c_bat_discharge_reason cfg r c) ∧
    (s3c_bat_discharge_reason cfg r c).batt_vcell = r.voltage.getD c.batt_vcell := by
  have hclear := clear_reasons_frame cfg { c with batt_vcell := r.voltage.getD c.batt_vcell }
  have hset : ∀ c, Frame c (set_reasons c) := fun c => ⟨⟨rfl, rfl⟩, ⟨rfl, rfl⟩, rfl⟩
  have hall := (hclear.trans (hset _)).trans (check_time_frame _ r.now)
  exact ⟨⟨hall.kept.health, hall.kept.lpm⟩, ⟨hall.same.count, hall.same.full⟩, hall.vcell⟩

/-- For a battery that is not in good health there is a reason. -/
theorem discharge_reason_ne_zero (h : c.batt_health ≠ .GOOD) :
    (s3c_bat_discharge_reason cfg r c).dis_reason ≠ 0 := by
  have hkept := (clear_reasons_frame cfg { c with batt_vcell := r.voltage.getD c.batt_vcell }).kept
  apply check_time_reason
  intro hzero
  -- The last reason that is added is that of the health.
  have hreason := (BitVec.or_eq_zero_iff.mp hzero).2
  rw [hkept.health] at hreason
  exact health_reason_ne_zero h hreason

theorem dock_attach_frame :
    Frame c (dock_attach r c) ∧ (dock_attach r c).dis_reason = c.dis_reason := by
  unfold dock_attach
  split <;> exact ⟨⟨⟨rfl, rfl⟩, ⟨rfl, rfl⟩, rfl⟩, rfl⟩

theorem dock_detach_kept :
    Kept c (dock_detach r c) ∧ (dock_detach r c).charging = c.charging ∧
    (dock_detach r c).count = c.count := by
  unfold dock_detach
  split <;> exact ⟨⟨rfl, rfl⟩, rfl, rfl⟩

theorem set_discharging_time_frame : Frame c (set_discharging_time r c) := by
  unfold set_discharging_time
  split <;> exact ⟨⟨rfl, rfl⟩, ⟨rfl, rfl⟩, rfl⟩

theorem cable_update_kept : Kept c (s3c_cable_status_update r c).2 ∧
    (s3c_cable_status_update r c).2.count = c.count := by
  unfold s3c_cable_status_update
  split
  · have hdock := (dock_attach_frame r c).1
    simp only
    split
    · split <;> exact ⟨hdock.kept.trans ⟨rfl, rfl⟩, hdock.same.count⟩
    have htime := hdock.trans (set_discharging_time_frame r _)
    split <;> exact ⟨htime.kept.trans ⟨rfl, rfl⟩, htime.same.count⟩
  have hoff : Kept c { c with charging := false } := ⟨rfl, rfl⟩
  obtain ⟨hdock, _, hcount⟩ := dock_detach_kept r { c with charging := false }
  split <;> exact ⟨(hoff.trans hdock).trans ⟨rfl, rfl⟩, hcount⟩

/-- With a reason against it the battery is not charged. -/
theorem cable_update_charging (h : c.dis_reason ≠ 0) :
    (s3c_cable_status_update r c).2.charging = false := by
  unfold s3c_cable_status_update
  split
  · simp only
    -- The cable is there, and the reason keeps the charger off.
    rw [if_pos (by rw [(dock_attach_frame r c).2]; exact h)]
    split <;> rfl
  split
  · exact (dock_detach_kept r { c with charging := false }).2.1
  · exact (dock_detach_kept r { c with charging := false }).2.1

/-- Reading the current leaves the charger, the cable and the voltage alone. -/
structure Untouched (c c' : Chg) : Prop where
  kept : Kept c c'
  charging : c'.charging = c.charging
  cable : c'.cable_status = c.cable_status
  vcell : c'.batt_vcell = c.batt_vcell

theorem count_full_untouched : Untouched c (count_full c) := by
  unfold count_full
  split <;> exact ⟨⟨rfl, rfl⟩, rfl, rfl, rfl⟩

theorem get_chg_current_untouched : Untouched c (s3c_get_chg_current cfg r c) := by
  have hover : ∀ c, Untouched c (check_overcharge c) := by
    intro c
    unfold check_overcharge
    split
    · exact count_full_untouched c
    · exact ⟨⟨rfl, rfl⟩, rfl, rfl, rfl⟩
  have hcurrent : ∀ c, Untouched c (check_current cfg c) := by
    intro c
    unfold check_current
    split
    · exact count_full_untouched c
    · exact ⟨⟨rfl, rfl⟩, rfl, rfl, rfl⟩
  unfold s3c_get_chg_current
  split
  · split
    · exact ⟨⟨rfl, rfl⟩, rfl, rfl, rfl⟩
    have h₁ := hover { c with chg_current_adc := r.chg_current }
    have h₂ := hcurrent (check_overcharge { c with chg_current_adc := r.chg_current })
    have hkept := h₁.kept.trans h₂.kept
    exact ⟨⟨hkept.health, hkept.lpm⟩, h₂.charging.trans h₁.charging, h₂.cable.trans h₁.cable,
      h₂.vcell.trans h₁.vcell⟩
  exact ⟨⟨rfl, rfl⟩, rfl, rfl, rfl⟩

theorem check_v_f_kept (adc_vf : Int) :
    (s3c_bat_check_v_f adc_vf c).2.lpm_charging_mode = c.lpm_charging_mode ∧
    (s3c_bat_check_v_f adc_vf c).2.charging = c.charging ∧
    SameCount c (s3c_bat_check_v_f adc_vf c).2 ∧
    (s3c_bat_check_v_f adc_vf c).2.batt_vcell = c.batt_vcell := by
  unfold s3c_bat_check_v_f
  split
  · split <;> exact ⟨rfl, rfl, ⟨rfl, rfl⟩, rfl⟩
  · exact ⟨rfl, rfl, ⟨rfl, rfl⟩, rfl⟩

/-- What a run makes of the health of the battery. -/
def health_after : Health :=
  (s3c_bat_check_v_f r.adc_vf (s3c_get_bat_temp cfg r.temp c)).2.batt_health

/-- **A run.** The health is that of the temperature and the identification;
if it is not good, the battery is not charged. -/
theorem bat_work_spec :
    (s3c_bat_work cfg r c).batt_health = health_after cfg r c ∧
    (s3c_bat_work cfg r c).lpm_charging_mode = c.lpm_charging_mode ∧
    (health_after cfg r c ≠ .GOOD → (s3c_bat_work cfg r c).charging = false) := by
  have hvf : (s3c_bat_check_v_f r.adc_vf (s3c_get_bat_temp cfg r.temp c)).2.lpm_charging_mode =
      c.lpm_charging_mode :=
    (check_v_f_kept (s3c_get_bat_temp cfg r.temp c) r.adc_vf).1
  unfold health_after s3c_bat_work
  simp only
  -- From here on only the health in `c₁` matters.
  generalize (s3c_bat_check_v_f r.adc_vf (s3c_get_bat_temp cfg r.temp c)).2 = c₁ at *
  have hreason := discharge_reason_ne_zero cfg r c₁
  have hkept := (discharge_reason_frame cfg r c₁).1.trans
    (cable_update_kept r (s3c_bat_discharge_reason cfg r c₁)).1
  have hcharging := cable_update_charging r (s3c_bat_discharge_reason cfg r c₁)
  generalize s3c_cable_status_update r (s3c_bat_discharge_reason cfg r c₁) = u at *
  split
  · have hcurrent := get_chg_current_untouched cfg r u.2
    have hall := hkept.trans hcurrent.kept
    refine ⟨hall.health, hall.lpm.trans hvf, ?_⟩
    intro hbad
    rw [hcurrent.charging]
    exact hcharging (hreason hbad)
  exact ⟨hkept.health, hkept.lpm.trans hvf, fun hbad => hcharging (hreason hbad)⟩

/-- The temperature neither sets nor removes `UNSPEC_FAILURE`. -/
theorem temp_health_unspec (b : BlockTemp) (temp_curr : Int) :
    temp_health b c temp_curr = .UNSPEC_FAILURE ↔ c.batt_health = .UNSPEC_FAILURE := by
  unfold temp_health
  cases c.batt_health <;> split_ifs <;> simp_all

/-- A temperature at a block threshold or beyond leaves no good health, and one
outside the range of recovery does not make it good. -/
theorem temp_health_ne_good (horder : low_block cfg.block_temp c < low_recover cfg.block_temp c)
    (h : Blocks cfg c r ∨ c.batt_health ≠ .GOOD ∧ ¬Recovers cfg c r) :
    temp_health cfg.block_temp c (temp_adc r.temp) ≠ .GOOD := by
  unfold Blocks Recovers at h
  unfold temp_health
  generalize temp_adc r.temp = temp_curr at *
  generalize low_block cfg.block_temp c = low_block at *
  generalize low_recover cfg.block_temp c = low_recover at *
  -- The thresholds are tried in the order of the source.
  by_cases hhigh : temp_curr ≥ high_block cfg.block_temp c
  · rw [if_pos hhigh]
    cases c.batt_health <;> decide
  have hout : ¬(temp_curr ≤ high_recover cfg.block_temp c ∧ temp_curr ≥ low_recover) := by
    omega
  rw [if_neg hhigh, if_neg hout]
  by_cases hlow : temp_curr ≤ low_block
  · rw [if_pos hlow]
    cases c.batt_health <;> decide
  rw [if_neg hlow]
  exact (h.resolve_left (by omega)).1

/-- The identification check makes the health good only if it passes where it
has failed before. -/
theorem check_v_f_ne_good {adc_vf : Int} (hhealth : c.batt_health ≠ .GOOD)
    (hvf : c.batt_health = .UNSPEC_FAILURE → vf_ok adc_vf = false) :
    (s3c_bat_check_v_f adc_vf c).2.batt_health ≠ .GOOD := by
  unfold s3c_bat_check_v_f
  split
  · rename_i hok
    rw [if_neg (fun hunspec => by rw [hvf hunspec] at hok; cases hok)]
    exact hhealth
  intro hgood
  cases hgood

/-- The interrupt at the end of charging only checks the identification and
marks the battery as full. -/
theorem topoff_spec (adc_vf : Int) :
    (topoff adc_vf c).lpm_charging_mode = c.lpm_charging_mode ∧
    (topoff adc_vf c).charging = c.charging ∧
    (topoff adc_vf c).batt_health = (s3c_bat_check_v_f adc_vf c).2.batt_health := by
  have hkept := check_v_f_kept c adc_vf
  unfold topoff
  simp only
  split
  · exact ⟨hkept.1, hkept.2.1, rfl⟩
  · split <;> exact ⟨hkept.1, hkept.2.1, rfl⟩

end functions

/-! ## Runs -/

/-- The thresholds are in order. -/
def BlockTemp.Ordered (b : BlockTemp) : Prop :=
  b.temp_low_block < b.temp_low_recover ∧ b.temp_low_recover ≤ b.temp_high_recover ∧
    b.temp_high_recover < b.temp_high_block

/-- Where the identification check passes after it has failed, no block is
pending. -/
def NoBlockPending (cfg : Config) (s : State) : Label → Prop
  | .work r => s.chg.batt_health = .UNSPEC_FAILURE → vf_ok r.adc_vf = true →
      blocked_after cfg s r = false
  | .topoff adc_vf => s.chg.batt_health = .UNSPEC_FAILURE → vf_ok adc_vf = true →
      s.blocked = false
  | _ => True

/-- As long as charging is blocked, the health is not good. -/
structure Inv (s : State) : Prop where
  lpm : s.chg.lpm_charging_mode = false
  health : s.blocked = true → s.chg.batt_health ≠ .GOOD
  charging : s.blocked = true → s.chg.charging = false

section runs
variable {cfg : Config} {s s' s'' : State} {r : Readings} {l : Label} {ls : List Label}

/-- What blocks charging after a run. -/
theorem blocked_after_eq_true (h : blocked_after cfg s r = true) :
    Blocks cfg s.chg r ∨ s.blocked = true ∧ ¬Recovers cfg s.chg r := by
  unfold blocked_after at h
  split at h
  · rename_i hblocks
    exact .inl hblocks
  split at h
  · cases h
  rename_i hrecovers
  exact .inr ⟨h, hrecovers⟩

theorem Inv.of_work (hinv : Inv s) (horder : cfg.block_temp.Ordered)
    (hcond : NoBlockPending cfg s (.work r)) : Inv (next cfg s (.work r)) := by
  have hspec := bat_work_spec cfg r s.chg
  have hlow : low_block cfg.block_temp s.chg < low_recover cfg.block_temp s.chg := by
    unfold low_block low_recover
    rw [hinv.lpm]
    exact horder.1
  have hbad : blocked_after cfg s r = true → health_after cfg r s.chg ≠ .GOOD := by
    intro hblocked
    apply check_v_f_ne_good
    · apply temp_health_ne_good cfg r s.chg hlow
      rcases blocked_after_eq_true hblocked with hblocks | ⟨hpending, hrecovers⟩
      · exact .inl hblocks
      · exact .inr ⟨hinv.health hpending, hrecovers⟩
    intro hunspec
    -- The identification had failed before the run, so the condition applies.
    have hbefore := (temp_health_unspec s.chg cfg.block_temp (temp_adc r.temp)).mp hunspec
    rw [Bool.eq_false_iff]
    intro hok
    rw [hcond hbefore hok] at hblocked
    cases hblocked
  refine ⟨hspec.2.1.trans hinv.lpm, ?_, ?_⟩
  · intro hblocked
    show (s3c_bat_work cfg r s.chg).batt_health ≠ .GOOD
    rw [hspec.1]
    exact hbad hblocked
  intro hblocked
  exact hspec.2.2 (hbad hblocked)

theorem Inv.of_topoff {adc_vf : Int} (hinv : Inv s)
    (hcond : NoBlockPending cfg s (.topoff adc_vf)) : Inv (next cfg s (.topoff adc_vf)) := by
  have hkept := topoff_spec s.chg adc_vf
  refine ⟨hkept.1.trans hinv.lpm, ?_, ?_⟩
  · intro hblocked
    show (topoff adc_vf s.chg).batt_health ≠ .GOOD
    rw [hkept.2.2]
    apply check_v_f_ne_good s.chg (hinv.health hblocked)
    intro hunspec
    rw [Bool.eq_false_iff]
    intro hok
    -- The condition excludes that the check passes while a block is pending.
    have hfree : s.blocked = false := hcond hunspec hok
    have hpending : s.blocked = true := hblocked
    rw [hfree] at hpending
    cases hpending
  intro hblocked
  exact hkept.2.1.trans (hinv.charging hblocked)

theorem Inv.of_next (hinv : Inv s) (horder : cfg.block_temp.Ordered)
    (hcond : NoBlockPending cfg s l) : Inv (next cfg s l) := by
  cases l with
  | work r => exact hinv.of_work horder hcond
  | topoff adc_vf => exact hinv.of_topoff hcond
  | use_module batt_use | set_slate mode | set_cable status =>
    exact ⟨hinv.lpm, hinv.health, hinv.charging⟩

theorem inv_of_reachable (horder : cfg.block_temp.Ordered)
    (h : ((system cfg).restrict (NoBlockPending cfg)).Reachable s) : Inv s := by
  refine System.invariant ?_ ?_ h
  · intro s hinit
    cases hinit
    exact ⟨rfl, fun hblocked => absurd hblocked (by decide), fun _ => rfl⟩
  intro s l s' hinv hstep
  obtain ⟨hcond, hnext⟩ := hstep
  cases hnext
  exact hinv.of_next horder hcond

/-- A block stays pending in a step that does not find the temperature in the
range of recovery. -/
theorem blocked_next (hlpm : s.chg.lpm_charging_mode = false) (hblocked : s.blocked = true)
    (hout : ∀ r, l = .work r → ¬(cfg.block_temp.temp_low_recover ≤ temp_adc r.temp ∧
      temp_adc r.temp ≤ cfg.block_temp.temp_high_recover)) :
    (next cfg s l).blocked = true := by
  cases l with
  | work r =>
    have hrecovers : ¬Recovers cfg s.chg r := by
      unfold Recovers low_recover high_recover
      rw [hlpm]
      exact hout r rfl
    show blocked_after cfg s r = true
    unfold blocked_after
    split
    · rfl
    · exact hblocked
  | _ => exact hblocked

/-- So it does in every run without such a step. -/
theorem blocked_steps (horder : cfg.block_temp.Ordered)
    (hsteps : ((system cfg).restrict (NoBlockPending cfg)).Steps s ls s') (hinv : Inv s)
    (hblocked : s.blocked = true)
    (hout : ∀ r, .work r ∈ ls → ¬(cfg.block_temp.temp_low_recover ≤ temp_adc r.temp ∧
      temp_adc r.temp ≤ cfg.block_temp.temp_high_recover)) :
    Inv s' ∧ s'.blocked = true := by
  induction hsteps with
  | nil s => exact ⟨hinv, hblocked⟩
  | cons hstep _ ih => ?_
  obtain ⟨hcond, hnext⟩ := hstep
  cases hnext
  apply ih (hinv.of_next horder hcond)
  · apply blocked_next hinv.lpm hblocked
    rintro r rfl
    exact hout r List.mem_cons_self
  intro r hr
  exact hout r (List.mem_cons_of_mem _ hr)

end runs

/-- **Too hot or too cold.** Suppose that, whenever the identification check
passes after it has failed, no block is pending. Then a run leaves the
battery charging only if it has found the temperature strictly between the
block thresholds, and after one that has not, the battery is not charged
before a run finds the temperature in the range of recovery. -/
theorem charging_only_between_blocks (cfg : Config) (horder : cfg.block_temp.Ordered)
    (s s' : State) (r : Readings)
    (h : ((system cfg).restrict (NoBlockPending cfg)).Reachable s)
    (hstep : ((system cfg).restrict (NoBlockPending cfg)).step s (.work r) s') :
    (s'.chg.charging = true →
      cfg.block_temp.temp_low_block < temp_adc r.temp ∧
      temp_adc r.temp < high_block cfg.block_temp s.chg) ∧
    (temp_adc r.temp ≤ cfg.block_temp.temp_low_block ∨
        high_block cfg.block_temp s.chg ≤ temp_adc r.temp →
      ∀ ls s'', ((system cfg).restrict (NoBlockPending cfg)).Steps s' ls s'' →
        (∀ r', .work r' ∈ ls → ¬(cfg.block_temp.temp_low_recover ≤ temp_adc r'.temp ∧
          temp_adc r'.temp ≤ cfg.block_temp.temp_high_recover)) →
        s''.chg.charging = false) := by
  have hlpm := (inv_of_reachable horder h).lpm
  have hinv := inv_of_reachable horder (h.step hstep)
  have hblocked : temp_adc r.temp ≤ cfg.block_temp.temp_low_block ∨
      high_block cfg.block_temp s.chg ≤ temp_adc r.temp → s'.blocked = true := by
    intro hblocks
    have hruns : Blocks cfg s.chg r := by
      unfold Blocks low_block
      rw [hlpm]
      exact hblocks
    cases hstep.2
    exact if_pos hruns
  constructor
  · intro hcharging
    -- Had the temperature been at a threshold, the block would be pending now.
    by_contra hout
    rw [hinv.charging (hblocked (by omega))] at hcharging
    cases hcharging
  intro hblocks ls s'' hsteps hout
  obtain ⟨hinv', hblocked'⟩ := blocked_steps horder hsteps hinv (hblocked hblocks) hout
  exact hinv'.charging hblocked'

/-- What is set on Victory. -/
def victory : Config where
  block_temp :=
    { temp_high_block := 215
      temp_high_recover := 195
      temp_low_recover := 118
      temp_low_block := 110
      temp_high_block_lpm := 208
      temp_high_recover_lpm := 197
      temp_low_recover_lpm := 122
      temp_low_block_lpm := 121
      temp_high_event_block := 247 }
  adc_table := (List.range 75).map fun i => ⟨107 + 2 * i, -70 + 10 * i⟩
  termination_curr_adc := 91
  charge_full_voltage := 4000000
  charge_full_current := 91
  charge_recharge_voltage := 4110000

/-- A run with a cable in which `temp_adc` is `adc`. -/
def reading (adc : Int) (adc_vf : Int) : Readings where
  temp := 4096 - 16 * adc
  adc_vf := adc_vf
  voltage := some 3900000
  now := 1
  vdcin := true
  dock := false
  control := true
  chg_current := 200

instance (cfg : Config) (s : State) (l : Label) : Decidable (NoBlockPending cfg s l) := by
  cases l <;> unfold NoBlockPending <;> infer_instance

theorem victory_ordered : victory.block_temp.Ordered := by
  unfold BlockTemp.Ordered
  decide

/-- The battery is charged, gets too hot and is not charged while it cools down
from 215 to 200. The samples are 896, 416 and 1376. -/
theorem charging_only_between_blocks_victory : ∃ s s' s'',
    ((system victory).restrict (NoBlockPending victory)).Reachable s ∧ s.chg.charging = true ∧
    ((system victory).restrict (NoBlockPending victory)).step s (.work (reading 215 20)) s' ∧
    ((system victory).restrict (NoBlockPending victory)).Steps s' [.work (reading 200 20)] s'' ∧
    s''.chg.charging = false := by
  let s := next victory probed (.work (reading 200 20))
  let s' := next victory s (.work (reading 215 20))
  have hstart : ((system victory).restrict (NoBlockPending victory)).step probed
      (.work (reading 200 20)) s := ⟨by decide +kernel, rfl⟩
  have hreach : ((system victory).restrict (NoBlockPending victory)).Reachable s :=
    (System.Reachable.of_init rfl).step hstart
  have hstep : ((system victory).restrict (NoBlockPending victory)).step s
      (.work (reading 215 20)) s' := ⟨by decide +kernel, rfl⟩
  have hcool : ((system victory).restrict (NoBlockPending victory)).Steps s'
      [.work (reading 200 20)] (next victory s' (.work (reading 200 20))) :=
    .single ⟨by decide +kernel, rfl⟩
  refine ⟨s, s', _, hreach, by decide +kernel, hstep, hcool, ?_⟩
  apply (charging_only_between_blocks victory victory_ordered s s' (reading 215 20) hreach
    hstep).2 (by decide +kernel) _ _ hcool
  intro r' hr'
  cases List.mem_singleton.mp hr'
  decide

/-- **An overheated battery is charged.** The identification check fails in a
run; in the next one it passes, and the temperature is at the block threshold.
The samples are 896 and 416. -/
theorem charging_overheated : ∃ s s',
    (system victory).Reachable s ∧ (system victory).step s (.work (reading 215 20)) s' ∧
    high_block victory.block_temp s.chg ≤ temp_adc (reading 215 20).temp ∧
    s'.chg.charging = true := by
  let s := next victory probed (.work (reading 200 100))
  have hreach : (system victory).Reachable s :=
    System.Reachable.step (s := probed) (.of_init rfl)
      (show (system victory).step probed (.work (reading 200 100)) s from rfl)
  exact ⟨s, next victory s (.work (reading 215 20)), hreach, rfl, by decide +kernel,
    by decide +kernel⟩

end Nubernel.Battery
