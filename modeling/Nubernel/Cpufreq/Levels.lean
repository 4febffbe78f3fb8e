import Nubernel.Cpufreq.Driver

/-! # cpufreq: voltages and the frequency during suspend

The conditions of the two results (`voltages_suffice` and
`sleep_freq_during_suspend`) can be violated: the undervolt table need not be monotone,
the level of 600 MHz does not run at 600 MHz, and the limit of the tokens
is applied during suspend, too.
-/

open LTS List Option

namespace Nubernel.Cpufreq

/-! ## Voltages -/

/-- The voltages suffice for the level. -/
def Supplied (cfg : Config) (s : Cpu) : Prop :=
  cfg.arm_volt s.level ≤ s.arm_volt ∧ dvs_conf_int_volt s.level ≤ s.int_volt

/-- Whether level `j` needs voltages at least as high as level `i`. -/
def needs_no_less (cfg : Config) (i j : Nat) : Bool :=
  decide (cfg.arm_volt i ≤ cfg.arm_volt j ∧ dvs_conf_int_volt i ≤ dvs_conf_int_volt j)

/-- Whether the order of the frequencies that a call compares is that of the
voltages, for the level that it changes to. -/
def ordered_call (cfg : Config) (s : Cpu) (c : Call) : Bool :=
  match find_level s c (effective_relation c.relation) with
  | none => true
  | some index =>
    decide (frequency index = s5pv210_cpufreq_getspeed s ∧ s.first_run = false) ||
      if frequency index ≥ s5pv210_cpufreq_getspeed s then
        needs_no_less cfg s.level index
      else
        needs_no_less cfg index s.level

def ordered (cfg : Config) (s : Cpu) : Label → Bool
  | .target c => ordered_call cfg s c
  | .notifier event env => (notifier_call event env).all (ordered_call cfg s)
  | .lock_dvfs _ _ | .unlock_dvfs _ => true

variable {t : Cpu} {l : Label}

section voltages
variable {cfg : Config} {s : Cpu} {c : Call} {index : Nat}

theorem raise_level_supplied (hreg : cfg.regulators = true) (h : Supplied cfg s)
    (hneeds : needs_no_less cfg s.level index = true) :
    ∀ t ∈ (raise_level cfg s c index).states, Supplied cfg t := by
  have hneeds' := of_decide_eq_true hneeds
  have harm : Supplied cfg { s with arm_volt := cfg.arm_volt index } := ⟨hneeds'.1, h.2⟩
  have hint : Supplied cfg { s with
      arm_volt := cfg.arm_volt index, int_volt := dvs_conf_int_volt index } := hneeds'
  -- The clock is changed after both voltages.
  have hclock : ∀ t : Cpu, t.level = index → t.arm_volt = cfg.arm_volt index →
      t.int_volt = dvs_conf_int_volt index → Supplied cfg t := by
    intro t hlevel h1 h2
    unfold Supplied
    rw [hlevel, h1, h2]
    exact ⟨Nat.le_refl _, Nat.le_refl _⟩
  unfold raise_level
  rw [if_pos hreg]
  split
  · split
    · simp only [forall_mem_cons]
      exact ⟨harm, hint, hclock _ rfl rfl rfl, hclock _ rfl rfl rfl, by simp⟩
    simp only [forall_mem_cons]
    exact ⟨harm, by simp⟩
  simp

theorem lower_level_supplied (hreg : cfg.regulators = true) (h : Supplied cfg s)
    (hneeds : needs_no_less cfg index s.level = true) :
    ∀ t ∈ (lower_level cfg s c index).states, Supplied cfg t := by
  have hneeds' := of_decide_eq_true hneeds
  obtain ⟨harm, hint⟩ := h
  have hclock : ∀ t : Cpu, t.level = index →
      (t.arm_volt = s.arm_volt ∨ t.arm_volt = cfg.arm_volt index) →
      (t.int_volt = s.int_volt ∨ t.int_volt = dvs_conf_int_volt index) → Supplied cfg t := by
    intro t hlevel h1 h2
    unfold Supplied
    rw [hlevel]
    omega
  -- The clock goes first; setting either voltage may fail then, and the code goes on.
  unfold lower_level
  simp only [hreg, if_true, forall_mem_cons]
  refine ⟨hclock _ rfl (.inl rfl) (.inl rfl), ?_, ?_, ?_, by simp⟩
  · split
    · exact hclock _ rfl (.inl rfl) (.inr rfl)
    · exact hclock _ rfl (.inl rfl) (.inl rfl)
  all_goals
    split_ifs
    · exact hclock _ rfl (.inr rfl) (.inr rfl)
    · exact hclock _ rfl (.inr rfl) (.inl rfl)
    · exact hclock _ rfl (.inl rfl) (.inr rfl)
    · exact hclock _ rfl (.inl rfl) (.inl rfl)

/-- Who may call is not a matter of voltages or levels. -/
structure SameLevel (s t : Cpu) : Prop where
  level : t.level = s.level
  arm_volt : t.arm_volt = s.arm_volt
  int_volt : t.int_volt = s.int_volt
  apll : t.apll = s.apll
  apll_div : t.apll_div = s.apll_div
  old_fclk : t.old_fclk = s.old_fclk
  first_run : t.first_run = s.first_run

theorem same_enable (s : Cpu) (relation : Nat) : SameLevel s (enable_access s relation) := by
  unfold enable_access
  split <;> exact ⟨rfl, rfl, rfl, rfl, rfl, rfl, rfl⟩

theorem same_disable (s : Cpu) (relation : Nat) : SameLevel s (disable_access s relation) := by
  unfold disable_access
  split <;> exact ⟨rfl, rfl, rfl, rfl, rfl, rfl, rfl⟩

theorem SameLevel.supplied (h : SameLevel s t) (hs : Supplied cfg s) : Supplied cfg t := by
  unfold Supplied
  rw [h.level, h.arm_volt, h.int_volt]
  exact hs

theorem SameLevel.trans {u : Cpu} (h : SameLevel s t) (h' : SameLevel t u) : SameLevel s u :=
  ⟨h'.level.trans h.level, h'.arm_volt.trans h.arm_volt, h'.int_volt.trans h.int_volt,
    h'.apll.trans h.apll, h'.apll_div.trans h.apll_div, h'.old_fclk.trans h.old_fclk,
    h'.first_run.trans h.first_run⟩

theorem SameLevel.getspeed (h : SameLevel s t) :
    s5pv210_cpufreq_getspeed t = s5pv210_cpufreq_getspeed s := by
  unfold s5pv210_cpufreq_getspeed
  rw [h.apll, h.apll_div]

/-- The tokens are not touched either. -/
theorem find_level_access (s : Cpu) (c : Call) (relation : Nat) :
    find_level (disable_access (enable_access s relation) relation) c relation =
      find_level s c relation := by
  unfold find_level apply_dvfs_limit tokens_held disable_access enable_access
  split <;> split <;> rfl

theorem target_supplied (hreg : cfg.regulators = true) (h : Supplied cfg s)
    (hordered : ordered_call cfg s c = true) :
    ∀ t ∈ (s5pv210_cpufreq_target cfg s c).states, Supplied cfg t := by
  unfold s5pv210_cpufreq_target
  simp only
  generalize hrel : effective_relation c.relation = relation
  have hsame := (same_enable s relation).trans (same_disable (enable_access s relation) relation)
  unfold ordered_call at hordered
  rw [hrel, ← find_level_access s c relation, ← hsame.getspeed, ← hsame.first_run, ← hsame.level]
    at hordered
  split
  · simp only [forall_mem_singleton]
    exact (same_enable s relation).supplied h
  unfold serve
  have hs := hsame.supplied h
  generalize disable_access (enable_access s relation) relation = t at *
  cases hfind : find_level t c relation with
  | none =>
    simp only [hfind, forall_mem_singleton]
    exact hs
  | some index => ?_
  simp only [hfind, Bool.or_eq_true, decide_eq_true_eq] at hordered
  simp only [hfind, forall_mem_cons]
  refine ⟨hs, ?_⟩
  unfold change_level
  split
  · simp
  rename_i hchange
  -- The driver compares frequencies, and `hordered` turns that into voltages.
  have hneeds := hordered.resolve_left hchange
  split
  · rename_i hup
    rw [if_pos hup] at hneeds
    exact raise_level_supplied hreg hs hneeds
  rename_i hup
  rw [if_neg hup] at hneeds
  exact lower_level_supplied hreg hs hneeds

theorem passed_supplied (hreg : cfg.regulators = true) (h : Supplied cfg s)
    (hordered : ordered cfg s l = true) : ∀ t ∈ passed cfg s l, Supplied cfg t := by
  cases l with
  | target c => exact target_supplied hreg h hordered
  | lock_dvfs nToken perf_level =>
    simp only [passed, forall_mem_singleton]
    unfold s5pv210_lock_dvfs_high_level
    split <;> exact h
  | unlock_dvfs nToken =>
    simp only [passed, forall_mem_singleton]
    unfold s5pv210_unlock_dvfs_high_level
    simp only
    split <;> exact h
  | notifier event env => ?_
  simp only [passed, s5pv210_cpufreq_notifier_event]
  cases hcall : notifier_call event env with
  | none => simp
  | some c =>
    simp only [ordered, hcall, all_some] at hordered
    exact target_supplied hreg h hordered

/-- The state after a step is the last one that was passed through. -/
theorem last_passed {P : Cpu → Prop} (hs : P s) (hall : ∀ t ∈ passed cfg s l, P t) :
    P ((passed cfg s l).getLastD s) := by
  have hlast : (passed cfg s l).getLastD s ∈ s :: passed cfg s l := getLastD_mem_cons
  rcases mem_cons.mp hlast with heq | hmem
  · rw [heq]
    exact hs
  exact hall _ hmem

theorem supplied_of_reachable (hreg : cfg.regulators = true)
    (h : ((cpufreq cfg).restrict fun s l => ordered cfg s l = true).Reachable s) :
    Supplied cfg s := by
  apply System.invariant _ _ h
  · rintro s ⟨index, _, rfl⟩
    exact ⟨Nat.le_refl _, Nat.le_refl _⟩
  intro s l s' hs hstep
  obtain ⟨hordered, hnext⟩ := hstep
  cases hnext
  exact last_passed hs (passed_supplied hreg hs hordered)

end voltages

/-- **Main theorem.** In every run in which the voltages of the levels that
the CPU changes from and to are in the same order as the frequencies that
the driver compares, every state that is passed through has the voltages
that its level needs. -/
theorem voltages_suffice (cfg : Config) (hreg : cfg.regulators = true) (s : Cpu)
    (h : ((cpufreq cfg).restrict fun s l => ordered cfg s l = true).Reachable s) (l : Label)
    (hordered : ordered cfg s l = true) :
    Supplied cfg s ∧ ∀ t ∈ passed cfg s l, Supplied cfg t := by
  have hs := supplied_of_reachable hreg h
  exact ⟨hs, passed_supplied hreg hs hordered⟩

/-- A call with all frequencies enabled and allowed. -/
def plain_call (target_freq : Nat) : Call :=
  ⟨⟨100000, 1400000, 100000, 1400000⟩, fun _ => 1, target_freq, CPUFREQ_RELATION_L, true, true⟩

/-- From 1 GHz to 200 MHz, without undervolting. -/
theorem voltages_suffice_lower :
    Supplied ⟨fun _ => 0, true⟩ (at_level ⟨fun _ => 0, true⟩ L4) ∧
    ∀ t ∈ passed ⟨fun _ => 0, true⟩ (at_level ⟨fun _ => 0, true⟩ L4) (.target (plain_call 200000)),
      Supplied ⟨fun _ => 0, true⟩ t :=
  voltages_suffice ⟨fun _ => 0, true⟩ rfl (at_level ⟨fun _ => 0, true⟩ L4)
    (.of_init ⟨L4, by decide, rfl⟩) (.target (plain_call 200000)) (by decide +kernel)

/-- 1128 MHz undervolted by 100 mV: on the way there from 1 GHz the voltage is
lowered to 1200 mV while the CPU still runs at 1 GHz, which needs 1275 mV. -/
theorem raise_undervolts_old_level :
    let cfg : Config := ⟨fun i => if i = 3 then 100 else 0, true⟩
    (∀ i < NUM_FREQ, 0 < cfg.arm_volt i ∧ cfg.arm_volt i ≤ 1500000) ∧
    (cpufreq cfg).Reachable (at_level cfg L4) ∧
    ∃ t ∈ passed cfg (at_level cfg L4) (.target (plain_call 1128000)),
      t.level = L4 ∧ cfg.arm_volt L4 = 1275000 ∧ t.arm_volt = 1200000 := by
  intro cfg
  have hobs : ((passed cfg (at_level cfg L4) (.target (plain_call 1128000)))[1]?).map (fun t =>
      (t.level, cfg.arm_volt L4, t.arm_volt)) = some (L4, 1275000, 1200000) := by
    decide +kernel
  obtain ⟨t, ht, hvolts⟩ := map_eq_some_iff.mp hobs
  simp only [Prod.mk.injEq] at hvolts
  exact ⟨by decide +kernel, .of_init ⟨L4, by decide, rfl⟩, t, mem_of_getElem? ht, hvolts⟩

/-! ## Suspend -/

/-- The APLL runs at the `fclk` of the level that it was set for. -/
def InSync (s : Cpu) : Prop := s.first_run = true ∨ s.apll = s.old_fclk

/-- No token asks for a level above that of `SLEEP_FREQ`. -/
def NoHigherLimit (s : Cpu) : Prop := tokens_held s = false ∨ L6 ≤ s.g_dvfs_high_lock_limit

/-- Whether a step is none that ends the suspend. -/
def keeps_suspend : Label → Bool
  | .target c => decide (c.relation &&& ENABLE_FURTHER_CPUFREQ = 0)
  | .notifier event _ => decide (event = .PM_SUSPEND_PREPARE)
  | .lock_dvfs _ _ | .unlock_dvfs _ => true

section suspend
variable {cfg : Config} {s : Cpu} {c : Call} {index : Nat}

/-- The policy of the notifier leaves one frequency. -/
theorem sleep_lookup (env : NotifierEnv) (policy : Policy) :
    cpufreq_frequency_table_target (prepare_call env policy).policy freq_table env.enabled_freqs
        SLEEP_FREQ CPUFREQ_RELATION_L =
      if env.enabled_freqs L6 = 0 then none else some L6 := by
  simp [cpufreq_frequency_table_target, target_loop, skipped, freq_table, prepare_call, SLEEP_FREQ,
    CPUFREQ_ENTRY_INVALID, CPUFREQ_RELATION_L, CPUFREQ_RELATION_H, L6, Slot.offer, at_most]
  split <;> simp_all

/-- The level that the notifier asks for is not raised. -/
theorem find_level_sleep (hlimit : NoHigherLimit s) (env : NotifierEnv) (policy : Policy) :
    find_level s (prepare_call env policy) DISABLE_FURTHER_CPUFREQ =
      if env.enabled_freqs L6 = 0 then none else some L6 := by
  have hmask : DISABLE_FURTHER_CPUFREQ &&& (0xffffffff ^^^ MASK_FURTHER_CPUFREQ) =
      CPUFREQ_RELATION_L := by
    decide
  have hkeep : apply_dvfs_limit s L6 = L6 := by
    unfold apply_dvfs_limit
    rw [if_neg]
    -- The limit replaces the index only if a token is held and the level is below it.
    rcases hlimit with hnone | hlow
    · simp [hnone]
    · omega
  unfold find_level
  show (cpufreq_frequency_table_target (prepare_call env policy).policy freq_table
    env.enabled_freqs SLEEP_FREQ CPUFREQ_RELATION_L).map _ = _
  rw [sleep_lookup]
  split
  · rfl
  · rw [map_some, hkeep]

theorem write_clock_sleep (h : InSync s) (hapll : t.apll = s.apll) (hfclk : t.old_fclk = s.old_fclk)
    (hfirst : t.first_run = s.first_run) :
    s5pv210_cpufreq_getspeed (write_clock t L6) = SLEEP_FREQ := by
  have hout : (write_clock t L6).apll = SLEEP_FREQ := by
    show (if clk_info_fclk L6 ≠ t.old_fclk ∨ t.first_run = true then apll_fout L6 else t.apll) = _
    split
    · rfl
    rename_i hsame
    simp only [not_or, Decidable.not_not, hfirst] at hsame
    rcases h with hrun | hsync
    · exact absurd hrun hsame.2
    -- The APLL is not programmed again, since `fclk` is the same.
    rw [hapll, hsync, ← hfclk, ← hsame.1]
    rfl
  unfold s5pv210_cpufreq_getspeed
  rw [hout]
  show SLEEP_FREQ / (clkdiv_val_APLL L6 + 1) = SLEEP_FREQ
  decide

theorem change_level_sleep (h : InSync s) (hret : (change_level cfg s c L6).ret = none) :
    s5pv210_cpufreq_getspeed ((change_level cfg s c L6).states.getLastD s) = SLEEP_FREQ := by
  unfold change_level at hret ⊢
  split
  -- The speed is right already, and nothing is changed.
  · rename_i hsame
    exact hsame.1.symm
  split
  · rename_i hup
    unfold raise_level at hret ⊢
    split_ifs at hret ⊢ <;> exact write_clock_sleep h rfl rfl rfl
  unfold lower_level
  split_ifs <;> exact write_clock_sleep h rfl rfl rfl

/-- Changing the level does not change who may call. -/
theorem change_level_access (cfg : Config) (s : Cpu) (c : Call) (index : Nat) :
    ((change_level cfg s c index).states.getLastD s).no_cpufreq_access = s.no_cpufreq_access := by
  unfold change_level raise_level lower_level
  split_ifs <;> rfl

variable {env : NotifierEnv}

theorem notifier_call_prepare
    (h : notifier_call .PM_SUSPEND_PREPARE env = some c) : ∃ policy, c = prepare_call env policy := by
  obtain ⟨policy, _, hcall⟩ := bind_eq_some_iff.mp h
  split at hcall
  · cases hcall
    exact ⟨policy, rfl⟩
  cases hcall

/-- **Before suspend.** If the notifier returns `NOTIFY_OK`, the CPU is at
`SLEEP_FREQ` and further calls are denied. -/
theorem prepare_sleep (hlimit : NoHigherLimit s) (hsync : InSync s) {states : List Cpu}
    (hok : s5pv210_cpufreq_notifier_event cfg s .PM_SUSPEND_PREPARE env = (.NOTIFY_OK, states)) :
    s5pv210_cpufreq_getspeed (states.getLastD s) = SLEEP_FREQ ∧
      (states.getLastD s).no_cpufreq_access = true := by
  unfold s5pv210_cpufreq_notifier_event at hok
  cases hcall : notifier_call .PM_SUSPEND_PREPARE env with
  | none =>
    rw [hcall] at hok
    cases hok
  | some c => ?_
  obtain ⟨policy, rfl⟩ := notifier_call_prepare hcall
  simp only [hcall, true_and, Prod.mk.injEq] at hok
  obtain ⟨hret, rfl⟩ := hok
  have hret' : (s5pv210_cpufreq_target cfg s (prepare_call env policy)).ret = none := by
    cases hr : (s5pv210_cpufreq_target cfg s (prepare_call env policy)).ret with
    | none => rfl
    | some e => simp [hr] at hret
  -- The relation is this mark alone, and no other one cancels it.
  have heffective : effective_relation (prepare_call env policy).relation =
      DISABLE_FURTHER_CPUFREQ := by
    show effective_relation DISABLE_FURTHER_CPUFREQ = _
    decide
  have henable : enable_access s DISABLE_FURTHER_CPUFREQ = s := rfl
  unfold s5pv210_cpufreq_target at hret' ⊢
  simp only [heffective, henable] at hret' ⊢
  split at hret'
  · cases hret'
  rename_i haccess
  rw [if_neg haccess]
  -- further calls are denied from here on
  have hsync' : InSync (disable_access s DISABLE_FURTHER_CPUFREQ) := hsync
  have hdenied : (disable_access s DISABLE_FURTHER_CPUFREQ).no_cpufreq_access = true := rfl
  have hfind : find_level (disable_access s DISABLE_FURTHER_CPUFREQ) (prepare_call env policy)
      DISABLE_FURTHER_CPUFREQ = if env.enabled_freqs L6 = 0 then none else some L6 :=
    find_level_sleep hlimit env policy
  unfold serve at hret' ⊢
  simp only [hfind] at hret' ⊢
  split at hret'
  · cases hret'
  rename_i index hindex
  split at hindex
  · cases hindex
  cases hindex
  rw [getLastD_cons]
  exact ⟨change_level_sleep hsync' hret', by rw [change_level_access]; exact hdenied⟩

section
variable (haccess : s.no_cpufreq_access = true)
include haccess

/-- A call without the mark that enables further calls is denied. -/
theorem target_denied (hrelation : c.relation &&& ENABLE_FURTHER_CPUFREQ = 0) :
    s5pv210_cpufreq_target cfg s c = ⟨some .EINVAL, [s]⟩ := by
  have heffective : effective_relation c.relation = c.relation := by
    unfold effective_relation
    rw [if_neg (fun h => h.1 hrelation)]
  unfold s5pv210_cpufreq_target
  have henable : enable_access s c.relation = s := by
    unfold enable_access
    rw [if_neg (fun h => h hrelation)]
  simp [heffective, henable, haccess]

/-- **During suspend.** Nothing changes the clock, or enables calls. -/
theorem passed_denied (hkeeps : keeps_suspend l = true) :
    ∀ t ∈ passed cfg s l, s5pv210_cpufreq_getspeed t = s5pv210_cpufreq_getspeed s ∧
      t.no_cpufreq_access = true := by
  cases l with
  | target c =>
    simp only [keeps_suspend, decide_eq_true_eq] at hkeeps
    simp only [passed, target_denied haccess hkeeps, forall_mem_singleton]
    exact ⟨trivial, haccess⟩
  | lock_dvfs nToken perf_level =>
    simp only [passed, forall_mem_singleton]
    unfold s5pv210_lock_dvfs_high_level
    split <;> exact ⟨rfl, haccess⟩
  | unlock_dvfs nToken =>
    simp only [passed, forall_mem_singleton]
    unfold s5pv210_unlock_dvfs_high_level
    simp only
    split <;> exact ⟨rfl, haccess⟩
  | notifier event env => ?_
  simp only [keeps_suspend, decide_eq_true_eq] at hkeeps
  subst hkeeps
  simp only [passed, s5pv210_cpufreq_notifier_event]
  cases hcall : notifier_call .PM_SUSPEND_PREPARE env with
  | none => simp
  | some c => ?_
  have hrelation : c.relation &&& ENABLE_FURTHER_CPUFREQ = 0 := by
    obtain ⟨policy, rfl⟩ := notifier_call_prepare hcall
    show DISABLE_FURTHER_CPUFREQ &&& ENABLE_FURTHER_CPUFREQ = 0
    decide
  simp only [target_denied haccess hrelation, forall_mem_singleton]
  exact ⟨trivial, haccess⟩

/-- A run in which suspend is not ended. -/
theorem denied_of_steps {s' : Cpu} {ls : List Label} (hs : (cpufreq cfg).Steps s ls s')
    (hkeeps : ∀ l ∈ ls, keeps_suspend l = true) :
    s5pv210_cpufreq_getspeed s' = s5pv210_cpufreq_getspeed s ∧ s'.no_cpufreq_access = true := by
  induction hs with
  | nil s => exact ⟨rfl, haccess⟩
  | @cons s s₁ s' l ls hstep _ ih => ?_
  cases hstep
  obtain ⟨hspeed, haccess₁⟩ :=
    last_passed ⟨rfl, haccess⟩ (passed_denied haccess (hkeeps l (.head _)))
  obtain ⟨hspeed', haccess'⟩ := ih haccess₁ fun l' hl' => hkeeps l' (.tail _ hl')
  exact ⟨hspeed'.trans hspeed, haccess'⟩

end

/-- **After suspend.** Calls are allowed again. -/
theorem post_access {event : PmEvent} (hevent : event ≠ .PM_SUSPEND_PREPARE)
    (hpolicy : env.policy.isSome = true) (hlocked : env.locked = true) :
    ((s5pv210_cpufreq_notifier_event cfg s event env).2.getLastD s).no_cpufreq_access = false := by
  obtain ⟨policy, hpolicy'⟩ := isSome_iff_exists.mp hpolicy
  have hcall : notifier_call event env = some (post_call env policy) := by
    unfold notifier_call
    rw [hpolicy', bind_some, if_pos hlocked]
    cases event with
    | PM_SUSPEND_PREPARE => exact absurd rfl hevent
    | PM_POST_RESTORE => rfl
    | PM_POST_SUSPEND => rfl
  have heffective : effective_relation (post_call env policy).relation =
      ENABLE_FURTHER_CPUFREQ := by
    show effective_relation ENABLE_FURTHER_CPUFREQ = _
    decide
  unfold s5pv210_cpufreq_notifier_event s5pv210_cpufreq_target
  simp only [hcall, heffective]
  rw [if_neg (show ¬ (enable_access s ENABLE_FURTHER_CPUFREQ).no_cpufreq_access = true by
    show ¬ false = true; decide)]
  -- Calls are enabled first, whether a level is found or not.
  have hallowed : (disable_access (enable_access s ENABLE_FURTHER_CPUFREQ)
      ENABLE_FURTHER_CPUFREQ).no_cpufreq_access = false := rfl
  unfold serve
  simp only
  split
  · exact hallowed
  rw [getLastD_cons, change_level_access]
  exact hallowed

/-- When calls are allowed, every call is served. -/
theorem target_served (haccess : s.no_cpufreq_access = false) (c : Call) :
    s5pv210_cpufreq_target cfg s c = serve cfg (enable_access s (effective_relation c.relation)) c
      (effective_relation c.relation) := by
  have hallowed : (enable_access s (effective_relation c.relation)).no_cpufreq_access = false := by
    unfold enable_access
    split
    · rfl
    · exact haccess
  unfold s5pv210_cpufreq_target
  simp [hallowed]

end suspend

/-- The policy of the user, and all frequencies enabled. -/
def plain_env : NotifierEnv := ⟨some ⟨100000, 1400000, 100000, 1400000⟩, true, fun _ => 1, true, true⟩

end Nubernel.Cpufreq
