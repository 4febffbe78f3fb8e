import Mathlib.Data.List.Basic

/-! # Labelled transition systems and their runs

The execution model shared by the driver models of this project: a
`System` has initial states and labelled steps, a run is a list of
labels together with the states it passes through.
-/

open Option

namespace LTS

/-- A labelled transition system. -/
structure System (State Label : Type) where
  /-- Initial states. -/
  init : State → Prop
  /-- `step s l s'`: the system moves from `s` to `s'` doing `l`. -/
  step : State → Label → State → Prop

namespace System

variable {State Label : Type} (sys : System State Label)

/-! ### Runs -/

/-- Finite runs: `sys.Steps s ls s'` when doing the labels `ls` in order
leads from `s` to `s'`. -/
inductive Steps : State → List Label → State → Prop where
  | nil (s : State) : Steps s [] s
  | cons {s s' s'' : State} {l : Label} {ls : List Label} :
      sys.step s l s' → Steps s' ls s'' → Steps s (l :: ls) s''

/-- States at the end of some run from an initial state. -/
def Reachable (s : State) : Prop :=
  ∃ s₀ ls, sys.init s₀ ∧ sys.Steps s₀ ls s

/-- The system whose steps are those of `sys` that meet `cond`. -/
def restrict (cond : State → Label → Prop) : System State Label where
  init := sys.init
  step := fun s l s' => cond s l ∧ sys.step s l s'

/-- The system of a deterministic step function that may refuse a label. -/
def ofFun (init : State → Prop) (next : State → Label → Option State) :
    System State Label where
  init := init
  step := fun s l s' => next s l = some s'

variable {sys}

variable {s s' : State} {l : Label} {ls : List Label}

theorem Steps.single (h : sys.step s l s') :
    sys.Steps s [l] s' :=
  .cons h (.nil s')

theorem Steps.append {s s' s'' : State} {ls ms : List Label}
    (h : sys.Steps s ls s') (h' : sys.Steps s' ms s'') :
    sys.Steps s (ls ++ ms) s'' := by
  induction h with
  | nil s => exact h'
  | cons hstep _ ih => exact .cons hstep (ih h')

theorem Reachable.of_init (h : sys.init s) : sys.Reachable s :=
  ⟨s, [], h, .nil s⟩

theorem Reachable.steps (h : sys.Reachable s) (hs : sys.Steps s ls s') : sys.Reachable s' := by
  obtain ⟨s₀, ms, hinit, hsteps⟩ := h
  exact ⟨s₀, ms ++ ls, hinit, hsteps.append hs⟩

theorem Reachable.step (h : sys.Reachable s) (hs : sys.step s l s') : sys.Reachable s' :=
  h.steps (.single hs)

variable {cond : State → Label → Prop}

/-- A run of the restricted system is a run of the system. -/
theorem Steps.of_restrict (h : (sys.restrict cond).Steps s ls s') :
    sys.Steps s ls s' := by
  induction h with
  | nil s => exact .nil s
  | cons hstep _ ih => exact .cons hstep.2 ih

theorem Reachable.of_restrict (h : (sys.restrict cond).Reachable s) : sys.Reachable s := by
  obtain ⟨s₀, ls, hinit, hsteps⟩ := h
  exact ⟨s₀, ls, hinit, hsteps.of_restrict⟩

/-! ### Replaying runs

Runs of a system given by a step function can be computed. -/

section replay
variable {init : State → Prop} {next : State → Label → Option State}

/-- Replaying with the condition checked before each step. -/
theorem restrict_steps_of_replay [∀ s l, Decidable (cond s l)]
    (h : ls.foldlM (fun s l => if cond s l then next s l else none) s = some s') :
    ((ofFun init next).restrict cond).Steps s ls s' := by
  induction ls generalizing s with
  | nil =>
    simp only [List.foldlM_nil, pure_def, some.injEq] at h
    exact h ▸ .nil s
  | cons l ls ih => ?_
  simp only [List.foldlM_cons, bind_eq_bind, bind_eq_some_iff] at h
  obtain ⟨s₁, hstep, hrest⟩ := h
  split at hstep
  · rename_i hcond
    exact .cons ⟨hcond, hstep⟩ (ih hrest)
  cases hstep

theorem steps_of_replay (h : ls.foldlM next s = some s') : (ofFun init next).Steps s ls s' := by
  have hsteps : ((ofFun init next).restrict fun _ _ => True).Steps s ls s' :=
    restrict_steps_of_replay (by simpa using h)
  exact hsteps.of_restrict

section observed
variable {P : State → Prop} [DecidablePred P]

theorem exists_of_any {r : Option State} (h : r.any (fun s => decide (P s)) = true) :
    ∃ s, r = some s ∧ P s := by
  cases r with
  | none => cases h
  | some s => exact ⟨s, rfl, of_decide_eq_true h⟩

/-- The state at the end of a run that is replayed, with what is seen in it. -/
theorem exists_of_replay (ls : List Label) (hinit : init s)
    (h : (ls.foldlM next s).any (fun s => decide (P s)) = true) :
    ∃ s, (ofFun init next).Reachable s ∧ P s := by
  obtain ⟨s', hs', hP⟩ := exists_of_any h
  exact ⟨s', ⟨s, ls, hinit, steps_of_replay hs'⟩, hP⟩

theorem restrict_exists_of_replay [∀ s l, Decidable (cond s l)] (ls : List Label) (hinit : init s)
    (h : (ls.foldlM (fun s l => if cond s l then next s l else none) s).any
      (fun s => decide (P s)) = true) :
    ∃ s, ((ofFun init next).restrict cond).Reachable s ∧ P s := by
  obtain ⟨s', hs', hP⟩ := exists_of_any h
  exact ⟨s', ⟨s, ls, hinit, restrict_steps_of_replay hs'⟩, hP⟩

end observed

end replay

/-! ### Invariants -/

variable {P : State → Prop}

/-- A property kept by every step is kept by every run. -/
theorem Steps.preserves (hs : sys.Steps s ls s') (hstep : ∀ s l s', P s → sys.step s l s' → P s')
    (h : P s) : P s' := by
  induction hs with
  | nil s => exact h
  | cons hst _ ih => exact ih (hstep _ _ _ h hst)

/-- **Invariant rule**: a property that holds initially and is kept by
every step holds in every reachable state. -/
theorem invariant (hinit : ∀ s, sys.init s → P s) (hstep : ∀ s l s', P s → sys.step s l s' → P s')
    (h : sys.Reachable s) : P s := by
  obtain ⟨s₀, ls, h₀, hsteps⟩ := h
  exact hsteps.preserves hstep (hinit s₀ h₀)

/-- Invariant rule relative to an invariant already proved: the step
obligation may use `Q` in the state before the step. -/
theorem invariant_under {Q : State → Prop} (hQ : ∀ s, sys.Reachable s → Q s)
    (hinit : ∀ s, sys.init s → P s) (hstep : ∀ s l s', Q s → P s → sys.step s l s' → P s')
    (h : sys.Reachable s) : P s := by
  obtain ⟨s₀, ls, h₀, hsteps⟩ := h
  have hreach : sys.Reachable s₀ := .of_init h₀
  have hP : P s₀ := hinit s₀ h₀
  clear h₀
  induction hsteps with
  | nil s => exact hP
  | cons hst _ ih =>
    exact ih (hreach.step hst) (hstep _ _ _ (hQ _ hreach) hP hst)

/-- Simulation rule: if each step from related states can be followed by the
specification with the same label, so can each run. -/
theorem Steps.simulates {Abstract : Type} {spec : System Abstract Label}
    {R : State → Abstract → Prop}
    (hstep : ∀ s a l s', R s a → sys.step s l s' → ∃ a', spec.step a l a' ∧ R s' a')
    {a : Abstract} (hR : R s a) (h : sys.Steps s ls s') :
    ∃ a', spec.Steps a ls a' ∧ R s' a' := by
  induction h generalizing a with
  | nil s => exact ⟨a, .nil a, hR⟩
  | cons hst _ ih =>
    obtain ⟨a₁, hspec, hR₁⟩ := hstep _ _ _ _ hR hst
    obtain ⟨a', hsteps, hR'⟩ := ih hR₁
    exact ⟨a', .cons hspec hsteps, hR'⟩

end System

end LTS
