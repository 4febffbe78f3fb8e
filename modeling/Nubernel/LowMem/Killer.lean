import Nubernel.Lib.Word
import Nubernel.Framework.System

/-! # The low memory killer

Model of `drivers/staging/android/lowmemorykiller.c`, which is built with
`SEC_ADJUST_LMK`. When memory is short, `lowmem_shrink` kills one process,
and then none until that one has exited or `HZ` jiffies have passed.

A task is known by the address of its `task_struct`. `now` counts the
jiffies without end; `jiffies` is a word.
-/

open LTS List

namespace Nubernel.LowMem

/-! ## What the killer reads -/

-- `CONFIG_HZ`: 1000 in `victory_nubernel-bml_defconfig`, 256 in `victory_8G_defconfig`.
variable (HZ : Nat)

def OOM_ADJUST_MAX : Int := 15

/-- `struct mm_struct`, with what `get_mm_rss` counts: pages of one address space. -/
structure Mm where
  rss : Nat
  rss_le : rss ≤ 2 ^ 20

/-- `struct task_struct`; the signal struct is there for its `oom_adj`. -/
structure Task where
  addr : Nat
  mm : Option Mm
  signal : Option Int

/-- One call: its argument, the page counters, the parameters of the module (the
arrays have 6 entries) and the processes. -/
structure Call where
  nr_to_scan : Int
  nr_free_pages : Nat
  nr_inactive_file : Nat
  nr_active_file : Nat
  nr_inactive_anon : Nat
  nr_active_anon : Nat
  lowmem_adj : Nat → Int
  lowmem_adj_size : Nat
  lowmem_minfree : Nat → Nat
  lowmem_minfree_size : Nat
  processes : List Task

structure State where
  now : Nat
  lowmem_deathpending : Option Nat
  lowmem_deathpending_timeout : Nat

def State.jiffies (s : State) : Nat := s.now % 2 ^ 32

/-! ## The functions of the source -/

def time_before_eq (a b : Nat) : Bool := decide (sub32 b a < 2 ^ 31)

/-- `other_free + other_file`, which is compared as a `size_t`. -/
def Call.free (c : Call) : Nat :=
  add32 c.nr_free_pages (add32 c.nr_inactive_file c.nr_active_file)

def Call.array_size (c : Call) : Nat := min (min 6 c.lowmem_adj_size) c.lowmem_minfree_size

/-- The loop over the thresholds ends at the first one above the free memory. -/
def Call.min_adj (c : Call) : Int :=
  match (range c.array_size).find? fun i => c.free < c.lowmem_minfree i with
  | some i => c.lowmem_adj i
  | none => OOM_ADJUST_MAX + 1

/-- `selected`, `selected_tasksize` and `selected_oom_adj`. -/
structure Selected where
  task : Task
  tasksize : Int
  oom_adj : Int

/-- One round of the loop over the processes. -/
def consider (min_adj : Int) (selected : Option Selected) (p : Task) : Option Selected :=
  match p.mm, p.signal with
  | some mm, some oom_adj =>
    let tasksize := toInt32 mm.rss
    if oom_adj < min_adj then selected
    else if tasksize ≤ 0 then selected
    else
      match selected with
      | none => some ⟨p, tasksize, oom_adj⟩
      | some q =>
        if oom_adj < q.oom_adj then some q
        else if oom_adj = q.oom_adj ∧ tasksize ≤ q.tasksize then some q
        else some ⟨p, tasksize, oom_adj⟩
  | _, _ => selected

/-- The return value, the process that is sent `SIGKILL`, and the new state. -/
def lowmem_shrink (s : State) (c : Call) : Int × Option Selected × State :=
  if s.lowmem_deathpending.isSome ∧
      time_before_eq s.jiffies s.lowmem_deathpending_timeout then
    (0, none, s)
  else if c.min_adj = OOM_ADJUST_MAX + 1 then
    (0, none, s)
  else
    let rem := toInt32 (c.nr_active_anon + c.nr_active_file + c.nr_inactive_anon +
      c.nr_inactive_file)
    if c.nr_to_scan ≤ 0 then
      (rem, none, s)
    else
      match c.processes.foldl (consider c.min_adj) none with
      | none => (-1, none, s)
      | some p => (rem - p.tasksize, some p,
          { s with
            lowmem_deathpending := some p.task.addr
            lowmem_deathpending_timeout := add32 s.jiffies HZ })

def task_notify_func (s : State) (task : Nat) : State :=
  if some task = s.lowmem_deathpending then { s with lowmem_deathpending := none } else s

inductive Label where
  | shrink (c : Call)
  /-- The task has exited and its `task_struct` is freed. -/
  | exit (task : Nat)
  | tick

def next (s : State) : Label → State
  | .shrink c => (lowmem_shrink HZ s c).2.2
  | .exit task => task_notify_func s task
  | .tick => { s with now := s.now + 1 }

def system : System State Label :=
  .ofFun (fun s => s.lowmem_deathpending = none) fun s l => some (next HZ s l)

/-! ## The selection -/

/-- The process has an mm with so many pages, at least one, and that `oom_adj`. -/
def Task.Has (p : Task) (rss oom_adj : Int) : Prop :=
  (∃ mm, p.mm = some mm ∧ (mm.rss : Int) = rss) ∧ p.signal = some oom_adj ∧ 0 < rss

/-- The process is below the threshold, or the one that is selected is at least
as good. -/
def Beaten (min_adj : Int) (selected : Option Selected) (rss oom_adj : Int) : Prop :=
  oom_adj < min_adj ∨ ∃ q, selected = some q ∧
    (oom_adj < q.oom_adj ∨ oom_adj = q.oom_adj ∧ rss ≤ q.tasksize)

/-- What considering the processes `ps` makes of the selection. -/
structure Considered (min_adj : Int) (ps : List Task) (o o' : Option Selected) : Prop where
  better : ∀ rss oom_adj, Beaten min_adj o rss oom_adj → Beaten min_adj o' rss oom_adj
  beaten : ∀ q ∈ ps, ∀ rss oom_adj, q.Has rss oom_adj → Beaten min_adj o' rss oom_adj
  found : ∀ q, o' = some q → o = some q ∨
    q.task ∈ ps ∧ q.task.Has q.tasksize q.oom_adj ∧ min_adj ≤ q.oom_adj

theorem consider_spec (min_adj : Int) (o : Option Selected) (p : Task) :
    Considered min_adj [p] o (consider min_adj o p) := by
  unfold consider
  split
  · rename_i mm adj hmm hadj
    have hsize : toInt32 mm.rss = mm.rss := by
      have := mm.rss_le
      exact toInt32_eq (by omega) (by omega)
    have hhas : ∀ rss oom_adj, p.Has rss oom_adj ↔ rss = mm.rss ∧ oom_adj = adj ∧ 0 < rss := by
      intro rss oom_adj
      unfold Task.Has
      grind
    simp only [hsize]
    cases o with
    | none =>
      split_ifs
      all_goals constructor <;> simp only [Beaten, mem_singleton] <;> grind
    | some q =>
      dsimp only
      split_ifs
      all_goals constructor <;> simp only [Beaten, mem_singleton] <;> grind
  rename_i hno
  refine ⟨fun _ _ h => h, ?_, fun _ h => .inl h⟩
  intro q hq rss oom_adj hhas
  cases mem_singleton.mp hq
  obtain ⟨⟨mm, hmm, _⟩, hadj, _⟩ := hhas
  exact absurd hadj (hno mm oom_adj hmm)

theorem foldl_consider_spec (min_adj : Int) (ps : List Task) (o : Option Selected) :
    Considered min_adj ps o (ps.foldl (consider min_adj) o) := by
  induction ps generalizing o with
  | nil => exact ⟨fun _ _ h => h, fun _ hq => absurd hq not_mem_nil, fun _ h => .inl h⟩
  | cons p ps ih => ?_
  have hone := consider_spec min_adj o p
  have hrest := ih (consider min_adj o p)
  refine ⟨fun _ _ h => hrest.better _ _ (hone.better _ _ h), ?_, ?_⟩
  · intro q hq rss oom_adj hhas
    rcases mem_cons.mp hq with rfl | hq
    · exact hrest.better _ _ (hone.beaten q (by simp) _ _ hhas)
    · exact hrest.beaten q hq _ _ hhas
  intro q hq
  rcases hrest.found q hq with hq | ⟨hmem, hhas⟩
  · exact (hone.found q hq).imp_right fun ⟨hmem, hhas⟩ => ⟨by simp_all, hhas⟩
  · exact .inr ⟨.tail _ hmem, hhas⟩

/-! ## Runs -/

/-- What a call can do: nothing, or one kill. -/
theorem lowmem_shrink_spec (s : State) (c : Call) : (lowmem_shrink HZ s c).2 = (none, s) ∨
    ∃ p, (lowmem_shrink HZ s c).2 = (some p, ⟨s.now, some p.task.addr, add32 s.jiffies HZ⟩) ∧
      ¬(s.lowmem_deathpending.isSome ∧ time_before_eq s.jiffies s.lowmem_deathpending_timeout) ∧
      c.min_adj ≠ OOM_ADJUST_MAX + 1 ∧ Considered c.min_adj c.processes none (some p) := by
  have hbest := foldl_consider_spec c.min_adj c.processes none
  unfold lowmem_shrink
  split_ifs with hpending hadj hscan
  · exact .inl rfl
  · exact .inl rfl
  · exact .inl rfl
  cases hp : c.processes.foldl (consider c.min_adj) none with
  | none => exact .inl rfl
  | some p => exact .inr ⟨p, rfl, hpending, hadj, hp ▸ hbest⟩

/-- The victim has exited, the time is over, or its death is still awaited. -/
def Waits (victim since : Nat) (ls : List Label) (s : State) : Prop :=
  .exit victim ∈ ls ∨ since + HZ < s.now ∨ (since ≤ s.now ∧ s.now ≤ since + HZ ∧
    s.lowmem_deathpending = some victim ∧ s.lowmem_deathpending_timeout = (since + HZ) % 2 ^ 32)

section runs
variable {HZ victim since : Nat} {ls : List Label} {s s' : State}

theorem now_le_next (s : State) (l : Label) : s.now ≤ (next HZ s l).now := by
  cases l with
  | shrink c =>
    rw [next]
    rcases lowmem_shrink_spec HZ s c with heq | ⟨p, heq, _⟩ <;> rw [heq]
  | exit task =>
    rw [next, task_notify_func]
    split <;> exact Nat.le_refl _
  | tick => exact Nat.le_succ _

variable (hHZ : HZ < 2 ^ 31)
include hHZ

theorem time_before_eq_of_waits (hsince : since ≤ s.now) (hnow : s.now ≤ since + HZ) :
    time_before_eq s.jiffies ((since + HZ) % 2 ^ 32) = true := by
  unfold time_before_eq State.jiffies sub32
  rw [decide_eq_true_eq]
  omega

theorem Waits.step {l : Label} (h : Waits HZ victim since ls s) :
    Waits HZ victim since (ls ++ [l]) (next HZ s l) := by
  rcases h with hexit | hover | ⟨hsince, hnow, hpending, htimeout⟩
  · exact .inl (mem_append_left _ hexit)
  · exact .inr (.inl (Nat.lt_of_lt_of_le hover (now_le_next s l)))
  cases l with
  | shrink c =>
    -- The call returns at once.
    have hsame : lowmem_shrink HZ s c = (0, none, s) := by
      unfold lowmem_shrink
      rw [if_pos ⟨by rw [hpending]; rfl, htimeout ▸ time_before_eq_of_waits hHZ hsince hnow⟩]
    rw [next, hsame]
    exact .inr (.inr ⟨hsince, hnow, hpending, htimeout⟩)
  | exit task =>
    by_cases htask : task = victim
    · exact .inl (by simp [htask])
    rw [next, task_notify_func, if_neg (by rw [hpending]; simpa using htask)]
    exact .inr (.inr ⟨hsince, hnow, hpending, htimeout⟩)
  | tick =>
    by_cases hlast : s.now = since + HZ
    · exact .inr (.inl (by rw [next, hlast]; exact Nat.lt_succ_self _))
    · exact .inr (.inr ⟨Nat.le_succ_of_le hsince, Nat.lt_of_le_of_ne hnow hlast, hpending, htimeout⟩)

theorem Waits.steps {ms : List Label} (h : Waits HZ victim since ls s) (hs : (system HZ).Steps s ms s') :
    Waits HZ victim since (ls ++ ms) s' := by
  induction hs generalizing ls with
  | nil s => simpa using h
  | cons hstep _ ih =>
    cases hstep
    simpa using ih (h.step hHZ)

end runs

/-- **The low memory killer.** In every run, who is killed is a process with
memory whose `oom_adj` reaches the threshold of the first `minfree` entry
above the free memory, no process with memory has a higher `oom_adj`, and
none with the same is larger. Before the next kill the victim exits, or more
than `HZ` jiffies pass. -/
theorem lowmem_kills (hHZ : HZ < 2 ^ 31) (s : State) (c : Call) (p : Selected)
    (hkill : (lowmem_shrink HZ s c).2.1 = some p) :
    (p.task ∈ c.processes ∧ p.task.Has p.tasksize p.oom_adj ∧
      (∃ i < c.array_size, c.free < c.lowmem_minfree i ∧ (∀ j < i, c.lowmem_minfree j ≤ c.free) ∧
        c.lowmem_adj i ≤ p.oom_adj) ∧
      ∀ q ∈ c.processes, ∀ rss oom_adj, q.Has rss oom_adj →
        oom_adj < p.oom_adj ∨ oom_adj = p.oom_adj ∧ rss ≤ p.tasksize) ∧
    ∀ ls s' c' p', (system HZ).Steps (lowmem_shrink HZ s c).2.2 ls s' →
      (lowmem_shrink HZ s' c').2.1 = some p' → .exit p.task.addr ∈ ls ∨ s.now + HZ < s'.now := by
  rcases lowmem_shrink_spec HZ s c with heq | ⟨_, heq, _, hadj, hbest⟩
  · rw [heq] at hkill
    cases hkill
  rw [heq] at hkill ⊢
  cases hkill
  obtain ⟨hmem, hhas, hmin⟩ := (hbest.found p rfl).resolve_left nofun
  refine ⟨⟨hmem, hhas, ?_, ?_⟩, ?_⟩
  · unfold Call.min_adj at hadj hmin
    split at hmin
    · rename_i i hfind
      rw [find?_range_eq_some] at hfind
      obtain ⟨hfree, hi, hfirst⟩ := hfind
      refine ⟨i, mem_range.mp hi, of_decide_eq_true hfree, ?_, hmin⟩
      intro j hj
      simpa using hfirst j hj
    rename_i hfind
    rw [hfind] at hadj
    exact absurd rfl hadj
  · intro q hq rss oom_adj hhas
    rcases hbest.beaten q hq rss oom_adj hhas with hlow | ⟨_, ⟨⟩, hmax⟩
    · exact .inl (Int.lt_of_lt_of_le hlow hmin)
    · exact hmax
  intro ls s' c' p' hsteps hkill'
  have hwaits : Waits HZ p.task.addr s.now [] ⟨s.now, some p.task.addr, add32 s.jiffies HZ⟩ :=
    .inr (.inr ⟨Nat.le_refl _, Nat.le_add_right _ _, rfl, Nat.mod_add_mod _ _ _⟩)
  rcases hwaits.steps hHZ hsteps with hexit | hover | ⟨hsince, hnow, hpending, htimeout⟩
  · exact .inl hexit
  · exact .inr hover
  -- The second call would have returned at once.
  rcases lowmem_shrink_spec HZ s' c' with heq' | ⟨_, _, hnot, _⟩
  · rw [heq'] at hkill'
    cases hkill'
  refine absurd ?_ hnot
  rw [hpending, htimeout]
  exact ⟨rfl, time_before_eq_of_waits hHZ hsince hnow⟩

/-- Two processes at the highest `oom_adj`: the larger one is killed, and the
other one only after its exit. -/
theorem lowmem_kills_two : ∃ s c p s' p',
    (lowmem_shrink 1000 s c).2.1 = some p ∧ p.task.addr = 2 ∧
    (system 1000).Steps (lowmem_shrink 1000 s c).2.2 [.exit 2] s' ∧ (lowmem_shrink 1000 s' c).2.1 = some p' ∧
    ∀ q ∈ c.processes, ∀ rss oom_adj, q.Has rss oom_adj →
      oom_adj < p.oom_adj ∨ oom_adj = p.oom_adj ∧ rss ≤ p.tasksize := by
  let c : Call := ⟨1, 100, 0, 0, 0, 0, fun _ => 0, 1, fun _ => 1536, 1,
    [⟨1, some ⟨10, by decide⟩, some 7⟩, ⟨2, some ⟨20, by decide⟩, some 7⟩, ⟨3, none, some 9⟩]⟩
  let s : State := ⟨0, none, 0⟩
  have hkill := lowmem_kills 1000 (by decide) s c _ rfl
  exact ⟨s, c, _, _, _, rfl, rfl, .single rfl, rfl, hkill.1.2.2.2⟩

end Nubernel.LowMem
