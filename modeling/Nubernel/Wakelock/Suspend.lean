import Nubernel.Wakelock.Model

/-! # wakelock: suspend is neither lost nor early

* `Lists` — the lists hold the locks that are active.
* `Triggered` — a lock without timeout is held, or `expire_timer` is set
  (it may be overdue), or `suspend_work` was queued.
* `Triggered` and `Lists` are kept by every step (`wake_step_ok`).

A lock that stays on the list for half the range of `jiffies` after its
expiry counts as unexpired again, and the trigger is lost.
-/

open Bool Function LTS List Option

namespace Nubernel.Wakelock

/-! ## The lists of locks -/

/-- The lock is active and of the type. -/
def Active (s : State) (type : LockType) (lock : Nat) : Prop :=
  (s.locks lock).initialized = true ∧ (s.locks lock).active = true ∧ (s.locks lock).type = type

/-- Every list of active locks holds the locks that are active, once each. -/
structure Lists (s : State) : Prop where
  mem : ∀ type lock, lock ∈ s.active_wake_locks type ↔ Active s type lock
  nodup : ∀ type, (s.active_wake_locks type).Nodup

section lists
variable {s : State} {lock : Nat}

section
variable (h : Lists s)
include h

variable {l : WakeLock}

/-- A lock that becomes inactive leaves its list. -/
theorem Lists.del (hl : l.initialized = false ∨ l.active = false) :
    Lists (list_del (s.set_lock lock l) lock) := by
  constructor
  · intro type a
    show a ∈ (s.active_wake_locks type).filter (· ≠ lock) ↔ Active (s.set_lock lock l) type a
    rw [mem_filter, h.mem]
    unfold Active State.set_lock
    by_cases ha : a = lock
    · subst ha
      rcases hl with hl | hl <;> simp [hl]
    simp [ha]
  intro type
  exact (h.nodup type).filter _

theorem Lists.add_inactive : Lists (add_inactive s lock) :=
  ⟨h.mem, h.nodup⟩

theorem Lists.expire : Lists (expire_wake_lock s lock) :=
  (h.del (.inr rfl)).add_inactive

theorem Lists.init (hnew : (s.locks lock).initialized = false) (type : LockType) :
    Lists (wake_lock_init s lock type) := by
  refine Lists.add_inactive ⟨?_, h.nodup⟩
  intro t a
  show a ∈ s.active_wake_locks t ↔ _
  rw [h.mem]
  unfold Active State.set_lock
  by_cases ha : a = lock
  · subst ha
    simp [hnew]
  simp [update_of_ne ha]

/-- A lock that becomes active is put on the list of its type, at either end. -/
theorem Lists.activate {s' : State} {type : LockType}
    (hl : l.initialized = true ∧ l.active = true ∧ l.type = type)
    (hlocks : s'.locks = update s.locks lock l) (hlists : ∀ t, (s'.active_wake_locks t).Perm
      (if t = type then lock :: (s.active_wake_locks t).filter (· ≠ lock)
        else (s.active_wake_locks t).filter (· ≠ lock))) :
    Lists s' := by
  constructor
  · intro t a
    rw [(hlists t).mem_iff]
    have hmem : a ∈ (s.active_wake_locks t).filter (· ≠ lock) ↔ Active s t a ∧ a ≠ lock := by
      rw [mem_filter, h.mem]
      simp
    unfold Active at hmem ⊢
    rw [hlocks]
    by_cases ha : a = lock
    · subst ha
      rw [update_self]
      split
      · rename_i ht
        simp [hl, ht]
      rename_i ht
      rw [hmem]
      simp [hl, Ne.symm ht]
    rw [update_of_ne ha]
    split
    · simp [ha, h.mem, Active]
    · simp [ha, h.mem, Active]
  intro t
  rw [(hlists t).nodup_iff]
  split
  · refine nodup_cons.mpr ⟨?_, (h.nodup t).filter _⟩
    simp
  exact (h.nodup t).filter _

end

theorem make_active_locks (s : State) (lock : Nat) (timeout : Option Int) :
    (make_active s lock timeout).locks = update s.locks lock (taken s lock timeout) := by
  cases timeout <;> rfl

theorem Lists.make_active (h : Lists s) (hinit : (s.locks lock).initialized = true)
    (timeout : Option Int) : Lists (make_active s lock timeout) := by
  have hl : (taken s lock timeout).initialized = true ∧ (taken s lock timeout).active = true ∧
      (taken s lock timeout).type = (s.locks lock).type := by
    cases timeout <;> exact ⟨hinit, rfl, rfl⟩
  apply h.activate hl (make_active_locks s lock timeout)
  intro t
  unfold Wakelock.make_active
  by_cases ht : t = (s.locks lock).type
  · subst ht
    cases timeout with
    -- A lock without timeout goes to the head of the list, others to its tail.
    | none => simp [add_active, list_del, State.set_lock]
    | some timeout =>
      simp [add_active_tail, list_del, State.set_lock]
  cases timeout <;> simp [add_active, add_active_tail, list_del, State.set_lock, ht]

end lists

/-! ## Looking for locks -/

/-- What `has_wake_lock_locked` can do: locks whose time is over become
inactive. -/
structure Swept (s s' : State) : Prop where
  lists : Lists s'
  jiffies : s'.jiffies = s.jiffies
  expire_timer : s'.expire_timer = s.expire_timer
  queued : s'.queued = s.queued
  locks : ∀ lock, s'.locks lock = s.locks lock ∨
    (s.locks lock).auto_expire = true ∧ s.time_left lock ≤ 0 ∧ (s'.locks lock).active = false

variable {s₁ : State}

section sweep
variable {s s' s'' : State}

theorem Swept.refl (h : Lists s) : Swept s s :=
  ⟨h, rfl, rfl, rfl, fun _ => .inl rfl⟩

variable {lock : Nat} {type : LockType}

theorem Swept.expire (h : Lists s) (hauto : (s.locks lock).auto_expire = true)
    (hleft : s.time_left lock ≤ 0) : Swept s (expire_wake_lock s lock) := by
  refine ⟨h.expire, rfl, rfl, rfl, ?_⟩
  intro a
  by_cases ha : a = lock
  · subst ha
    right
    refine ⟨hauto, hleft, ?_⟩
    simp [expire_wake_lock, add_inactive, list_del, State.set_lock]
  exact .inl (update_of_ne ha ..)

/-- A lock that is still active has not been touched. -/
theorem Swept.locks_eq (h : Swept s s')
    (hactive : Active s' type lock) : s'.locks lock = s.locks lock := by
  rcases h.locks lock with heq | ⟨_, _, hinactive⟩
  · exact heq
  rw [hactive.2.1] at hinactive
  cases hinactive

theorem Swept.active_of (h : Swept s s') (hactive : Active s' type lock) : Active s type lock := by
  have heq := h.locks_eq hactive
  unfold Active at hactive ⊢
  rwa [heq] at hactive

/-- A lock without timeout, or with time left, is still active. -/
theorem Swept.active (h : Swept s s') (hactive : Active s type lock)
    (hleft : (s.locks lock).auto_expire = true → 0 < s.time_left lock) :
    Active s' type lock ∧ s'.locks lock = s.locks lock := by
  rcases h.locks lock with heq | ⟨hauto, hover, _⟩
  · unfold Active
    rw [heq]
    exact ⟨hactive, rfl⟩
  have := hleft hauto
  omega

theorem time_left_congr (hj : s'.jiffies = s.jiffies)
    (hl : s'.locks lock = s.locks lock) : s'.time_left lock = s.time_left lock := by
  unfold State.time_left
  rw [hj, hl]

theorem Swept.trans (h : Swept s s') (h' : Swept s' s'') : Swept s s'' := by
  refine ⟨h'.lists, h'.jiffies.trans h.jiffies, h'.expire_timer.trans h.expire_timer,
    h'.queued.trans h.queued, ?_⟩
  intro lock
  rcases h.locks lock with heq | hover
  · rcases h'.locks lock with heq' | hover'
    · exact .inl (heq'.trans heq)
    rw [heq, time_left_congr h.jiffies heq] at hover'
    exact .inr hover'
  right
  refine ⟨hover.1, hover.2.1, ?_⟩
  -- The second part does not make the lock active again.
  rcases h'.locks lock with heq' | hover'
  · rw [heq']
    exact hover.2.2
  exact hover'.2.2

/-- What the loop finds in the locks that it looks at. -/
structure Found (s s' : State) (visited : List Nat) (max_timeout r : Int) : Prop where
  timed : ∀ lock ∈ visited, (s.locks lock).auto_expire = true
  gone : ∀ lock ∈ visited, s.time_left lock ≤ 0 → (s'.locks lock).active = false
  bound : ∀ lock ∈ visited, s.time_left lock ≤ r
  start : max_timeout ≤ r
  exact : r = max_timeout ∨ ∃ lock ∈ visited, s.time_left lock = r

/-- What was found behind a lock in a state in which the locks there are the
same, with the lock itself. -/
theorem Found.cons {lock : Nat} {rest : List Nat} {max_timeout m r : Int} (h : Found s₁ s' rest m r)
    (hj : s₁.jiffies = s.jiffies) (hsame : ∀ a ∈ rest, s₁.locks a = s.locks a)
    (hauto : (s.locks lock).auto_expire = true)
    (hgone : s.time_left lock ≤ 0 → (s'.locks lock).active = false) (hstart : max_timeout ≤ m)
    (hle : s.time_left lock ≤ m) (hor : m = max_timeout ∨ m = s.time_left lock) :
    Found s s' (lock :: rest) max_timeout r := by
  have hleft : ∀ a ∈ rest, s₁.time_left a = s.time_left a :=
    fun a ha => time_left_congr hj (hsame a ha)
  have hm := h.start
  refine ⟨forall_mem_cons.mpr ⟨hauto, ?_⟩, forall_mem_cons.mpr ⟨hgone, ?_⟩,
    forall_mem_cons.mpr ⟨by omega, ?_⟩, by omega, ?_⟩
  · intro a ha
    rw [← hsame a ha]
    exact h.timed a ha
  · intro a ha hover
    rw [← hleft a ha] at hover
    exact h.gone a ha hover
  · intro a ha
    rw [← hleft a ha]
    exact h.bound a ha
  rcases h.exact with heq | ⟨a, ha, heq⟩
  -- The maximum was not found behind the lock: it is the lock's, or the first one.
  · rcases hor with hor | hor
    · exact .inl (heq.trans hor)
    · exact .inr ⟨lock, .head _, (heq.trans hor).symm⟩
  rw [hleft a ha] at heq
  exact .inr ⟨a, .tail _ ha, heq⟩

/-- **The loop.** It stops at a lock without timeout, or finds the longest
time left. -/
theorem has_wake_lock_loop_spec (visited : List Nat) (h : Lists s) (hnodup : visited.Nodup)
    (max_timeout : Int) (hmax : 0 ≤ max_timeout) :
    Swept s (has_wake_lock_loop visited s max_timeout).1 ∧
      ((has_wake_lock_loop visited s max_timeout).2 = -1 ∧
          (∃ lock ∈ visited, (s.locks lock).auto_expire = false) ∨
        Found s (has_wake_lock_loop visited s max_timeout).1 visited max_timeout
          (has_wake_lock_loop visited s max_timeout).2) := by
  induction visited generalizing s max_timeout with
  | nil =>
    refine ⟨.refl h, .inr ⟨?_, ?_, ?_, Int.le_refl _, .inl rfl⟩⟩ <;> simp
  | cons lock rest ih => ?_
  -- `list_for_each_entry_safe` has read the next lock before this one may leave
  -- the list, and expiring it does not touch the others.
  obtain ⟨hnot, hrest⟩ := nodup_cons.mp hnodup
  unfold has_wake_lock_loop
  split
  · rename_i hauto
    split
    · -- the lock has expired
      rename_i hover
      have hswept := Swept.expire h hauto hover
      have hsame : ∀ a ∈ rest, (expire_wake_lock s lock).locks a = s.locks a := by
        intro a ha
        exact update_of_ne (ne_of_mem_of_not_mem ha hnot) ..
      have hinactive : ((expire_wake_lock s lock).locks lock).active = false := by
        simp [expire_wake_lock, add_inactive, list_del, State.set_lock]
      obtain ⟨hswept', hcase⟩ := ih hswept.lists hrest max_timeout hmax
      refine ⟨hswept.trans hswept', ?_⟩
      rcases hcase with ⟨hr, a, ha, huntimed⟩ | hfound
      · rw [hsame a ha] at huntimed
        exact .inl ⟨hr, a, .tail _ ha, huntimed⟩
      right
      refine hfound.cons rfl hsame hauto ?_ (Int.le_refl _) (by omega) (.inl rfl)
      intro _
      rcases hswept'.locks lock with heq | hover'
      · rw [heq]
        exact hinactive
      exact hover'.2.2
    -- the lock has time left
    rename_i hover
    -- Whether the maximum grows or not, the rest is walked with a bound of both.
    have hcons : ∀ m, max_timeout ≤ m → s.time_left lock ≤ m →
        (m = max_timeout ∨ m = s.time_left lock) →
        Swept s (has_wake_lock_loop rest s m).1 ∧
          ((has_wake_lock_loop rest s m).2 = -1 ∧
            (∃ a ∈ lock :: rest, (s.locks a).auto_expire = false) ∨
          Found s (has_wake_lock_loop rest s m).1 (lock :: rest) max_timeout
            (has_wake_lock_loop rest s m).2) := by
      intro m hm hle hor
      obtain ⟨hswept, hcase⟩ := ih h hrest m (by omega)
      refine ⟨hswept, ?_⟩
      rcases hcase with ⟨hr, a, ha, huntimed⟩ | hfound
      · exact .inl ⟨hr, a, .tail _ ha, huntimed⟩
      right
      exact hfound.cons rfl (fun _ _ => rfl) hauto (fun hle' => absurd hle' hover) hm hle hor
    split
    · exact hcons _ (by omega) (Int.le_refl _) (.inr rfl)
    · exact hcons _ (Int.le_refl _) (by omega) (.inl rfl)
  rename_i huntimed
  -- `return -1` at the first lock without timeout.
  exact ⟨.refl h, .inl ⟨rfl, lock, .head _, by simpa using huntimed⟩⟩

end sweep

/-! ## What keeps the system awake -/

/-- A lock without timeout is active. -/
def HeldForever (s : State) : Prop :=
  ∃ lock, Active s .WAKE_LOCK_SUSPEND lock ∧ (s.locks lock).auto_expire = false

/-- The timer is pending for the time when the last lock expires. -/
def Armed (s : State) (lock : Nat) : Prop :=
  Active s .WAKE_LOCK_SUSPEND lock ∧ s.expire_timer = some (s.locks lock).expires ∧
    ∀ other, Active s .WAKE_LOCK_SUSPEND other →
      (s.locks other).auto_expire = true ∧ (s.locks other).expires ≤ (s.locks lock).expires

/-- A lock has not expired, and the timer is pending for the time when the
last one expires. -/
def HeldTimed (s : State) : Prop := ∃ lock, Armed s lock ∧ (s.jiffies : Int) < (s.locks lock).expires

/-- No lock is active, and the work was queued. -/
def Idle (s : State) : Prop :=
  (∀ lock, ¬ Active s .WAKE_LOCK_SUSPEND lock) ∧ s.queued_since = true

/-- The next trigger for suspend is not lost; the timer may be overdue. -/
def Triggered (s : State) : Prop := HeldForever s ∨ (∃ lock, Armed s lock) ∨ Idle s

/-- No active lock with a timeout has so much time left, or has been over for
so long, that the difference of the words has the wrong sign. -/
def InRange (s : State) : Prop :=
  ∀ lock, Active s .WAKE_LOCK_SUSPEND lock → (s.locks lock).auto_expire = true →
    -2 ^ 31 ≤ (s.locks lock).expires - s.jiffies ∧ (s.locks lock).expires - s.jiffies < 2 ^ 31

section triggers
variable {s s' : State}

theorem InRange.time_left (h : InRange s) {lock : Nat}
    (hactive : Active s .WAKE_LOCK_SUSPEND lock) (hauto : (s.locks lock).auto_expire = true) :
    s.time_left lock = (s.locks lock).expires - s.jiffies :=
  toInt32_eq (h lock hactive hauto).1 (h lock hactive hauto).2

section
variable {r : State × Int}
variable (h : Lists s) (hrange : InRange s) (hr : has_wake_lock_locked s .WAKE_LOCK_SUSPEND = r)
include h hrange hr

theorem has_wake_lock_locked_spec :
    Swept s r.1 ∧
      (r.2 = -1 ∧ HeldForever r.1 ∨
       r.2 = 0 ∧ (∀ lock, ¬ Active r.1 .WAKE_LOCK_SUSPEND lock) ∨
       0 < r.2 ∧ ∃ lock, Active r.1 .WAKE_LOCK_SUSPEND lock ∧
        (r.1.locks lock).expires = r.1.jiffies + r.2 ∧
        ∀ other, Active r.1 .WAKE_LOCK_SUSPEND other → (r.1.locks other).auto_expire = true ∧
          (r.1.locks other).expires ≤ (r.1.locks lock).expires) := by
  obtain ⟨hswept, hcase⟩ := has_wake_lock_loop_spec (s.active_wake_locks .WAKE_LOCK_SUSPEND) h
    (h.nodup _) 0 (Int.le_refl 0)
  unfold has_wake_lock_locked at hr
  rw [hr] at hswept hcase
  refine ⟨hswept, ?_⟩
  have hmem := h.mem .WAKE_LOCK_SUSPEND
  rcases hcase with ⟨hneg, lock, hlock, huntimed⟩ | hfound
  · have hactive := hswept.active ((hmem lock).mp hlock) (fun hauto => by simp [huntimed] at hauto)
    left
    exact ⟨hneg, lock, hactive.1, by rw [hactive.2]; exact huntimed⟩
  right
  -- an active lock is one of those looked at, with its time left
  have hleft : ∀ lock, Active r.1 .WAKE_LOCK_SUSPEND lock →
      (r.1.locks lock).auto_expire = true ∧ 0 < s.time_left lock ∧ s.time_left lock ≤ r.2 ∧
        s.time_left lock = (r.1.locks lock).expires - r.1.jiffies := by
    intro lock hactive
    have hbefore := hswept.active_of hactive
    have hvisited := (hmem lock).mpr hbefore
    have hauto := hfound.timed lock hvisited
    rw [hswept.locks_eq hactive, hswept.jiffies]
    refine ⟨hauto, ?_, hfound.bound lock hvisited, hrange.time_left hbefore hauto⟩
    rcases Int.lt_or_le 0 (s.time_left lock) with hpos | hle
    · exact hpos
    have hgone := hfound.gone lock hvisited hle
    rw [hactive.2.1] at hgone
    cases hgone
  have hstart := hfound.start
  rcases hfound.exact with hzero | ⟨lock, hvisited, heq⟩
  · left
    refine ⟨hzero, ?_⟩
    intro lock hactive
    have := hleft lock hactive
    omega
  rcases Int.lt_or_eq_of_le hstart with hpos | hzero
  · right
    have hactive := (hswept.active ((hmem lock).mp hvisited) fun _ => by omega).1
    have hlock := hleft lock hactive
    refine ⟨hpos, lock, hactive, by omega, ?_⟩
    intro other hother
    have := hleft other hother
    exact ⟨this.1, by omega⟩
  left
  refine ⟨hzero.symm, ?_⟩
  intro other hother
  have := hleft other hother
  omega

/-- What holds when an operation has looked at the locks. -/
structure Decided (s s' : State) : Prop where
  lists : Lists s'
  jiffies : s'.jiffies = s.jiffies
  locks : ∀ lock, Active s' .WAKE_LOCK_SUSPEND lock → s'.locks lock = s.locks lock
  active : ∀ lock, Active s' .WAKE_LOCK_SUSPEND lock → Active s .WAKE_LOCK_SUSPEND lock
  triggered : HeldForever s' ∨ HeldTimed s' ∨ Idle s'
  queued : s'.queued ≠ s.queued → ∀ lock, ¬ Active s' .WAKE_LOCK_SUSPEND lock

/-- The timer is updated as the locks require. -/
theorem update_expire_timer_spec :
    Decided s (update_expire_timer r.1 r.2) := by
  obtain ⟨hswept, hcase⟩ := has_wake_lock_locked_spec h hrange hr
  unfold update_expire_timer
  rcases hcase with ⟨hneg, hheld⟩ | ⟨hzero, hnone⟩ | ⟨hpos, lock, hlock, hexpires, hmax⟩
  -- A lock without timeout: the timer is deleted if it is pending.
  · rw [if_neg (by omega), if_neg (by omega)]
    exact ⟨⟨hswept.lists.mem, hswept.lists.nodup⟩, hswept.jiffies, fun _ => hswept.locks_eq,
      fun _ => hswept.active_of, .inl hheld, fun hne => absurd hswept.queued hne⟩
  -- No lock: the work is queued.
  · rw [if_neg (by omega), if_pos hzero]
    exact ⟨⟨hswept.lists.mem, hswept.lists.nodup⟩, hswept.jiffies, fun _ => hswept.locks_eq,
      fun _ => hswept.active_of, .inr (.inr ⟨hnone, rfl⟩), fun _ => hnone⟩
  -- Locks with timeouts: `mod_timer` to the last expiry.
  rw [if_pos hpos]
  refine ⟨⟨hswept.lists.mem, hswept.lists.nodup⟩, hswept.jiffies, fun _ => hswept.locks_eq,
    fun _ => hswept.active_of, .inr (.inl ⟨lock, ⟨hlock, ?_, hmax⟩, ?_⟩),
    fun hne => absurd hswept.queued hne⟩
  · rw [hexpires]
  show (r.1.jiffies : Int) < (r.1.locks lock).expires
  omega

end

end triggers

/-! ## The operations -/

/-- The invariant. -/
structure Ok (s : State) : Prop where
  lists : Lists s
  ahead : ∀ lock, Active s .WAKE_LOCK_SUSPEND lock → (s.locks lock).auto_expire = true →
    (s.locks lock).expires - s.jiffies < 2 ^ 31
  triggered : Triggered s

/-- The three cases in which the system may be after an operation. -/
def Kept (s : State) : Prop := HeldForever s ∨ HeldTimed s ∨
  (∀ lock, Active s .WAKE_LOCK_SUSPEND lock → unexpired s lock = false) ∧ s.queued_since = true

/-- An operation leaves the suspend locks, the timer and the work alone. -/
structure Alone (s s' : State) : Prop where
  lists : Lists s'
  jiffies : s'.jiffies = s.jiffies
  expire_timer : s'.expire_timer = s.expire_timer
  queued : s'.queued = s.queued
  queued_since : s'.queued_since = s.queued_since
  active : ∀ lock, Active s' .WAKE_LOCK_SUSPEND lock ↔ Active s .WAKE_LOCK_SUSPEND lock
  locks : ∀ lock, Active s .WAKE_LOCK_SUSPEND lock → s'.locks lock = s.locks lock

section operations
variable {s s' : State} {lock : Nat}

theorem Armed.of_alone (h : Alone s s') (harmed : Armed s lock) : Armed s' lock := by
  obtain ⟨hactive, htimer, hmax⟩ := harmed
  refine ⟨(h.active lock).mpr hactive, ?_, ?_⟩
  · rw [h.expire_timer, h.locks lock hactive]
    exact htimer
  intro other hother
  have hbefore := (h.active other).mp hother
  rw [h.locks lock hactive, h.locks other hbefore]
  exact hmax other hbefore

theorem Triggered.of_alone (h : Alone s s') (ht : Triggered s) : Triggered s' := by
  rcases ht with ⟨a, hactive, huntimed⟩ | ⟨a, harmed⟩ | ⟨hnone, hsince⟩
  · exact .inl ⟨a, (h.active a).mpr hactive, by rw [h.locks a hactive]; exact huntimed⟩
  · exact .inr (.inl ⟨a, harmed.of_alone h⟩)
  exact .inr (.inr ⟨fun a hactive => hnone a ((h.active a).mp hactive), by
    rw [h.queued_since]; exact hsince⟩)

theorem Ok.of_alone (hok : Ok s) (h : Alone s s') : Ok s' := by
  refine ⟨h.lists, ?_, hok.triggered.of_alone h⟩
  intro a hactive hauto
  have hbefore := (h.active a).mp hactive
  rw [h.locks a hbefore] at hauto ⊢
  rw [h.jiffies]
  exact hok.ahead a hbefore hauto

/-- Only one lock changes, and it is not an active suspend lock, before or after. -/
theorem Alone.of_other (s s' : State) (lock : Nat) (hlists : Lists s')
    (hjiffies : s'.jiffies = s.jiffies) (htimer : s'.expire_timer = s.expire_timer)
    (hqueued : s'.queued = s.queued) (hsince : s'.queued_since = s.queued_since)
    (hlocks : ∀ a, a ≠ lock → s'.locks a = s.locks a) (hbefore : ¬ Active s .WAKE_LOCK_SUSPEND lock)
    (hafter : ¬ Active s' .WAKE_LOCK_SUSPEND lock) : Alone s s' := by
  refine ⟨hlists, hjiffies, htimer, hqueued, hsince, ?_, ?_⟩
  · intro a
    by_cases ha : a = lock
    · subst ha
      exact ⟨fun h => absurd h hafter, fun h => absurd h hbefore⟩
    unfold Active
    rw [hlocks a ha]
  intro a hactive
  by_cases ha : a = lock
  · exact absurd (ha ▸ hactive) hbefore
  · exact hlocks a ha

theorem wake_lock_init_spec (lock : Nat) (h : Lists s) (hnew : (s.locks lock).initialized = false)
    (type : LockType) : Alone s (wake_lock_init s lock type) := by
  apply Alone.of_other s _ lock (h.init hnew type) rfl rfl rfl rfl
  · intro a ha
    exact update_of_ne ha ..
  · simp [Active, hnew]
  · simp [Active, wake_lock_init, add_inactive, State.set_lock]

theorem wake_lock_destroy_spec (h : Lists s) (hinactive : (s.locks lock).active = false) :
    Alone s (wake_lock_destroy s lock) := by
  apply Alone.of_other s _ lock (h.del (.inl rfl)) rfl rfl rfl rfl
  · intro a ha
    exact update_of_ne ha ..
  · simp [Active, hinactive]
  · simp [Active, list_del, State.set_lock]

/-- The locks after `lock` was set to `l`, put where it may be. -/
theorem active_set (hlocks : s₁.locks = update s.locks lock l) {a : Nat} {type : LockType}
    (hactive : Active s₁ type a) :
    a = lock ∧ s₁.locks a = l ∨ a ≠ lock ∧ Active s type a ∧ s₁.locks a = s.locks a := by
  unfold Active at hactive ⊢
  rw [hlocks] at hactive ⊢
  by_cases ha : a = lock
  · subst ha
    exact .inl ⟨rfl, update_self ..⟩
  rw [update_of_ne ha] at hactive ⊢
  exact .inr ⟨ha, hactive, rfl⟩

/-- One lock is written, and if it has a timeout that is in range. -/
theorem InRange.set (h : InRange s) (hlocks : s₁.locks = update s.locks lock l)
    (hj : s₁.jiffies = s.jiffies) (hl : l.auto_expire = true →
      -2 ^ 31 ≤ l.expires - s.jiffies ∧ l.expires - s.jiffies < 2 ^ 31) : InRange s₁ := by
  intro a hactive
  rw [hj]
  rcases active_set hlocks hactive with ⟨_, heq⟩ | ⟨_, hbefore, heq⟩
  · rw [heq]
    exact hl
  rw [heq]
  exact h a hbefore

/-- An operation on a suspend lock that looks at the locks: what holds then. -/
structure Looked (s s' : State) : Prop where
  lists : Lists s'
  jiffies : s'.jiffies = s.jiffies
  ahead : ∀ lock, Active s' .WAKE_LOCK_SUSPEND lock → (s'.locks lock).auto_expire = true →
    (s'.locks lock).expires - s'.jiffies < 2 ^ 31
  triggered : HeldForever s' ∨ HeldTimed s' ∨ Idle s'
  queued : s'.queued ≠ s.queued → ∀ lock, ¬ Active s' .WAKE_LOCK_SUSPEND lock

theorem Decided.looked (h : Decided s₁ s') (hrange : InRange s₁) (hjiffies : s₁.jiffies = s.jiffies)
    (hqueued : s₁.queued = s.queued) : Looked s s' := by
  refine ⟨h.lists, h.jiffies.trans hjiffies, ?_, h.triggered, ?_⟩
  · intro a hactive hauto
    rw [h.locks a hactive] at hauto ⊢
    rw [h.jiffies]
    exact (hrange a (h.active a hactive) hauto).2
  rw [← hqueued]
  exact h.queued

theorem wake_lock_timeout_spec (h : Lists s) (hrange : InRange s)
    (hinit : (s.locks lock).initialized = true)
    (htype : (s.locks lock).type = .WAKE_LOCK_SUSPEND) {timeout : Int} (hmin : -2 ^ 31 ≤ timeout)
    (hmax : timeout < 2 ^ 31) : Looked s (wake_lock_internal s lock (some timeout)) := by
  unfold wake_lock_internal
  rw [htype]
  have hrange' : InRange (make_active s lock (some timeout)) := by
    apply hrange.set (make_active_locks ..) rfl
    intro _
    -- The lock expires after the timeout, which is a `long`.
    show -2 ^ 31 ≤ (s.jiffies : Int) + timeout - s.jiffies ∧
      (s.jiffies : Int) + timeout - s.jiffies < 2 ^ 31
    omega
  exact (update_expire_timer_spec (h.make_active hinit _) hrange' rfl).looked hrange' rfl rfl

theorem wake_unlock_spec (h : Lists s) (hrange : InRange s)
    (htype : (s.locks lock).type = .WAKE_LOCK_SUSPEND) : Looked s (wake_unlock s lock) := by
  unfold wake_unlock
  simp only [htype]
  have hrange' : InRange (expire_wake_lock s lock) := hrange.set rfl rfl nofun
  exact (update_expire_timer_spec h.expire hrange' rfl).looked hrange' rfl rfl

theorem wake_lock_spec (lock : Nat) (h : Lists s) (hahead : ∀ lock, Active s .WAKE_LOCK_SUSPEND lock →
      (s.locks lock).auto_expire = true → (s.locks lock).expires - s.jiffies < 2 ^ 31)
    (hinit : (s.locks lock).initialized = true)
    (htype : (s.locks lock).type = .WAKE_LOCK_SUSPEND) :
    Looked s (wake_lock_internal s lock none) := by
  unfold wake_lock_internal
  rw [htype]
  have hlists := h.make_active hinit none
  have hself : (make_active s lock none).locks lock = taken s lock none := by
    rw [make_active_locks, update_self]
  show Looked s { make_active s lock none with expire_timer := none }
  refine ⟨⟨hlists.mem, hlists.nodup⟩, rfl, ?_, .inl ⟨lock, ?_, ?_⟩, fun hne => absurd rfl hne⟩
  · intro a hactive hauto
    rcases active_set (make_active_locks s lock none) hactive with ⟨_, heq⟩ | ⟨_, hbefore, heq⟩
    · rw [show (make_active s lock none).locks a = _ from heq] at hauto
      cases hauto
    rw [show (make_active s lock none).locks a = _ from heq] at hauto ⊢
    exact hahead a hbefore hauto
  · unfold Active
    rw [hself]
    exact ⟨hinit, rfl, htype⟩
  rw [hself]
  rfl

/-- The timer fires when all locks have expired. -/
theorem expire_wake_locks_spec (h : Ok s) (hrange : InRange s) {due : Int}
    (htimer : s.expire_timer = some due) (hdue : due ≤ s.jiffies) :
    Looked s (expire_wake_locks s) := by
  unfold expire_wake_locks
  have hlists : Lists { s with expire_timer := none } := ⟨h.lists.mem, h.lists.nodup⟩
  obtain ⟨hswept, hcase⟩ := has_wake_lock_locked_spec hlists hrange rfl
  generalize has_wake_lock_locked { s with expire_timer := none } .WAKE_LOCK_SUSPEND = r at *
  have hahead : ∀ a, Active r.1 .WAKE_LOCK_SUSPEND a → (r.1.locks a).auto_expire = true →
      (r.1.locks a).expires - r.1.jiffies < 2 ^ 31 := by
    intro a hactive hauto
    rw [hswept.locks_eq hactive] at hauto ⊢
    rw [hswept.jiffies]
    exact h.ahead a (hswept.active_of hactive) hauto
  rcases hcase with ⟨hneg, hheld⟩ | ⟨hzero, hnone⟩ | ⟨hpos, a, hactive, hexpires, hall⟩
  · rw [if_neg (by omega)]
    exact ⟨hswept.lists, hswept.jiffies, hahead, .inl hheld, fun hne => absurd hswept.queued hne⟩
  · rw [if_pos hzero]
    exact ⟨⟨hswept.lists.mem, hswept.lists.nodup⟩, hswept.jiffies, hahead,
      .inr (.inr ⟨hnone, rfl⟩), fun _ => hnone⟩
  -- a lock would have time left, but the timer was set for the last one
  exfalso
  have hbefore := hswept.active_of hactive
  have hlock := hswept.locks_eq hactive
  rcases h.triggered with ⟨b, hb, huntimed⟩ | ⟨b, hb, htimer', hmax⟩ | ⟨hnone, _⟩
  · have hb' := hswept.active hb fun hb' => by
      rw [show (s.locks b).auto_expire = false from huntimed] at hb'
      cases hb'
    have := (hall b hb'.1).1
    rw [hb'.2] at this
    simp [huntimed] at this
  · have hle := (hmax a hbefore).2
    rw [htimer, Option.some.injEq] at htimer'
    have hj : r.1.jiffies = s.jiffies := hswept.jiffies
    rw [hlock] at hexpires
    have hexp : (s.locks a).expires = r.1.jiffies + r.2 := hexpires
    omega
  · exact hnone a hbefore

/-- The lists are kept whatever the expiries are. -/
theorem wake_unlock_lists (h : Lists s) (lock : Nat) : Lists (wake_unlock s lock) := by
  have hexpire : Lists (expire_wake_lock s lock) := h.expire
  have hswept := (has_wake_lock_loop_spec _ hexpire (hexpire.nodup .WAKE_LOCK_SUSPEND) 0
    (Int.le_refl 0)).1
  unfold wake_unlock
  simp only
  split
  · simp only [update_expire_timer]
    split
    · exact ⟨hswept.lists.mem, hswept.lists.nodup⟩
    · split <;> exact ⟨hswept.lists.mem, hswept.lists.nodup⟩
  exact hexpire

/-- Locks of another type. -/
theorem wake_lock_idle_spec (h : Lists s) (hinit : (s.locks lock).initialized = true)
    (htype : (s.locks lock).type = .WAKE_LOCK_IDLE) (timeout : Option Int) :
    Alone s (wake_lock_internal s lock timeout) := by
  unfold wake_lock_internal
  rw [htype]
  have hother : (taken s lock timeout).type = .WAKE_LOCK_IDLE := by
    cases timeout <;> exact htype
  apply Alone.of_other s (make_active s lock timeout) lock (h.make_active hinit timeout)
  case hjiffies | htimer | hqueued | hsince => cases timeout <;> rfl
  · intro a ha
    rw [make_active_locks, update_of_ne ha]
  · simp [Active, htype]
  · simp [Active, make_active_locks, hother]

theorem wake_unlock_idle_spec (h : Lists s) (htype : (s.locks lock).type = .WAKE_LOCK_IDLE) :
    Alone s (wake_unlock s lock) := by
  unfold wake_unlock
  rw [htype]
  apply Alone.of_other s (expire_wake_lock s lock) lock h.expire rfl rfl rfl rfl
  · intro a ha
    exact update_of_ne ha ..
  · simp [Active, htype]
  · simp [Active, expire_wake_lock, add_inactive, list_del, State.set_lock]

end operations

/-! ## Runs -/

/-- Whether the operation is one on a suspend lock. -/
def on_suspend_lock (s : State) : Op → Bool
  | .wake_lock_init _ type => decide (type = .WAKE_LOCK_SUSPEND)
  | .wake_lock_destroy lock => decide ((s.locks lock).type = .WAKE_LOCK_SUSPEND)
  | .wake_lock lock => decide ((s.locks lock).type = .WAKE_LOCK_SUSPEND)
  | .wake_lock_timeout lock _ => decide ((s.locks lock).type = .WAKE_LOCK_SUSPEND)
  | .wake_unlock lock => decide ((s.locks lock).type = .WAKE_LOCK_SUSPEND)
  | .expire_wake_locks => true

/-- Whether no suspend lock has been expired for more than half the range of
`jiffies`. -/
def recently_expired (s : State) : Bool :=
  (s.active_wake_locks .WAKE_LOCK_SUSPEND).all fun lock =>
    !(s.locks lock).auto_expire || decide ((s.jiffies : Int) - (s.locks lock).expires ≤ 2 ^ 31)

/-- Whether the timer is pending although it was due. -/
def overdue (s : State) : Bool := s.expire_timer.any fun due : Int => decide (due ≤ s.jiffies)

/-- The operations that look at the suspend locks find none that has been
expired for too long; those that do not look come when the timer is not
overdue. -/
def on_time (s : State) (l : Label) : Bool :=
  !on_suspend_lock (at_start s l) l.op ||
    match l.op with
    | .wake_lock_init _ _ | .wake_lock_destroy _ => !overdue (at_start s l)
    | .wake_lock _ => true
    | _ => recently_expired (at_start s l)

section runs
variable {s s' : State} {l : Label}

theorem InRange.of_ahead (h : Ok s) (hrecent : recently_expired s = true) : InRange s := by
  intro lock hactive hauto
  refine ⟨?_, h.ahead lock hactive hauto⟩
  have hlock := List.all_eq_true.mp hrecent lock ((h.lists.mem _ _).mpr hactive)
  simp only [hauto, Bool.not_true, Bool.false_or, decide_eq_true_eq] at hlock
  omega

theorem type_cases (type : LockType) :
    decide (type = .WAKE_LOCK_SUSPEND) = true ∧ type = .WAKE_LOCK_SUSPEND ∨
      decide (type = .WAKE_LOCK_SUSPEND) = false ∧ type = .WAKE_LOCK_IDLE := by
  cases type <;> decide

theorem Ok.at_start (h : Ok s) (l : Label) : Ok (at_start s l) := by
  refine ⟨⟨h.lists.mem, h.lists.nodup⟩, ?_, h.triggered⟩
  intro lock hactive hauto
  have := h.ahead lock hactive hauto
  show (s.locks lock).expires - ((s.jiffies + l.elapsed : Nat) : Int) < 2 ^ 31
  omega

/-- **One operation.** It looks at the locks, or leaves them alone; it leaves
alone suspend locks only when the timer is not overdue. -/
theorem operation_cases (h : Ok s) (hallowed : allowed (at_start s l) l.op = true)
    (htime : on_time s l = true) :
    Looked (at_start s l) (operation (at_start s l) l.op) ∨
      Alone (at_start s l) (operation (at_start s l) l.op) ∧
        (on_suspend_lock (at_start s l) l.op = true → overdue (at_start s l) = false) := by
  have hok := h.at_start l
  unfold on_time at htime
  obtain ⟨elapsed, op⟩ := l
  generalize at_start s ⟨elapsed, op⟩ = t at *
  cases op with
  | wake_lock_init lock type =>
    simp only [allowed, not_eq_true'] at hallowed
    refine .inr ⟨wake_lock_init_spec lock hok.lists hallowed type, fun hon => ?_⟩
    simpa [hon] using htime
  | wake_lock_destroy lock =>
    simp only [allowed, and_eq_true, not_eq_true'] at hallowed
    refine .inr ⟨wake_lock_destroy_spec hok.lists hallowed.2, fun hon => ?_⟩
    simpa [hon] using htime
  | wake_lock lock =>
    rcases type_cases (t.locks lock).type with ⟨_, htype⟩ | ⟨hoff, htype⟩
    -- A lock without timeout is taken without a look at the others.
    · exact .inl (wake_lock_spec lock hok.lists hok.ahead hallowed htype)
    exact .inr ⟨wake_lock_idle_spec hok.lists hallowed htype none,
      fun hon => absurd hon (by simp [on_suspend_lock, hoff])⟩
  | wake_lock_timeout lock timeout =>
    simp only [allowed, and_eq_true, decide_eq_true_eq] at hallowed
    obtain ⟨hinit, hmin, hmax⟩ := hallowed
    rcases type_cases (t.locks lock).type with ⟨hon, htype⟩ | ⟨hoff, htype⟩
    · simp only [on_suspend_lock, hon, Bool.not_true, Bool.false_or] at htime
      exact .inl (wake_lock_timeout_spec hok.lists (.of_ahead hok htime) hinit htype hmin hmax)
    exact .inr ⟨wake_lock_idle_spec hok.lists hinit htype _,
      fun hon => absurd hon (by simp [on_suspend_lock, hoff])⟩
  | wake_unlock lock =>
    rcases type_cases (t.locks lock).type with ⟨hon, htype⟩ | ⟨hoff, htype⟩
    · simp only [on_suspend_lock, hon, Bool.not_true, Bool.false_or] at htime
      exact .inl (wake_unlock_spec hok.lists (.of_ahead hok htime) htype)
    exact .inr ⟨wake_unlock_idle_spec hok.lists htype,
      fun hon => absurd hon (by simp [on_suspend_lock, hoff])⟩
  | expire_wake_locks =>
    obtain ⟨due, htimer, hdue⟩ := (any_eq_true _ _).mp hallowed
    exact .inl (expire_wake_locks_spec hok (.of_ahead hok htime) htimer (of_decide_eq_true hdue))

/-- Observing changes nothing but whether the work was queued since a lock was
held. -/
theorem observe_cases (s : State) : observe s = s ∨ observe s = { s with queued_since := false } ∧
    ∃ lock ∈ s.active_wake_locks .WAKE_LOCK_SUSPEND, unexpired s lock = true := by
  unfold observe
  split
  · rename_i hany
    exact .inr ⟨rfl, any_eq_true.mp hany⟩
  exact .inl rfl

theorem Ok.observe (h : Ok s) : Ok (observe s) := by
  rcases observe_cases s with heq | ⟨heq, lock, hlock, _⟩
  · rw [heq]
    exact h
  rw [heq]
  refine ⟨⟨h.lists.mem, h.lists.nodup⟩, h.ahead, ?_⟩
  rcases h.triggered with hheld | harmed | hidle
  · exact .inl hheld
  · exact .inr (.inl harmed)
  -- A lock that has not expired is active, so this is not the idle case.
  · exact absurd ((h.lists.mem _ lock).mp hlock) (hidle.1 lock)

theorem Kept.observe (hlists : Lists s) (h : Kept s) : Kept (observe s) := by
  rcases observe_cases s with heq | ⟨heq, lock, hlock, hunexpired⟩
  · rw [heq]
    exact h
  rw [heq]
  rcases h with hheld | harmed | hidle
  · exact .inl hheld
  · exact .inr (.inl harmed)
  have := hidle.1 lock ((hlists.mem _ lock).mp hlock)
  rw [hunexpired] at this
  cases this

theorem Looked.ok (h : Looked s s') : Ok s' := by
  refine ⟨h.lists, h.ahead, ?_⟩
  rcases h.triggered with hheld | ⟨lock, harmed, _⟩ | hidle
  · exact .inl hheld
  · exact .inr (.inl ⟨lock, harmed⟩)
  · exact .inr (.inr hidle)

theorem Looked.kept (h : Looked s s') : Kept s' := by
  rcases h.triggered with hheld | harmed | hidle
  · exact .inl hheld
  · exact .inr (.inl harmed)
  · exact .inr (.inr ⟨fun lock hactive => absurd hactive (hidle.1 lock), hidle.2⟩)

/-- While the timer is not overdue a lock that it is set for has not expired. -/
theorem Ok.kept (h : Ok s) (htimer : overdue s = false) : Kept s := by
  rcases h.triggered with hheld | ⟨lock, harmed⟩ | hidle
  · exact .inl hheld
  · refine .inr (.inl ⟨lock, harmed, ?_⟩)
    rw [overdue, harmed.2.1, any_some] at htimer
    simpa using htimer
  · exact .inr (.inr ⟨fun lock hactive => absurd hactive (hidle.1 lock), hidle.2⟩)

/-- **One step.** The invariant is kept; after an operation on a suspend lock
the system is kept awake or the work was queued; and when the work is
queued no lock is active. -/
theorem wake_step_ok (h : Ok s) (htime : on_time s l = true) (hstep : wake_step s l = some s') :
    Ok s' ∧ (on_suspend_lock (at_start s l) l.op = true → Kept s') ∧
      (s'.queued ≠ s.queued → ∀ lock, ¬ Active s' .WAKE_LOCK_SUSPEND lock) := by
  unfold wake_step at hstep
  split at hstep
  · rename_i hguard
    cases hstep
    have hqueued : ∀ t, (observe t).queued = t.queued ∧ (observe t).locks = t.locks := by
      intro t
      unfold observe
      split <;> exact ⟨rfl, rfl⟩
    have hactive : ∀ t lock, Active (observe t) .WAKE_LOCK_SUSPEND lock →
        Active t .WAKE_LOCK_SUSPEND lock := by
      intro t lock hactive
      unfold Active at hactive ⊢
      rwa [(hqueued t).2] at hactive
    rcases operation_cases h hguard.2 htime with hlooked | ⟨halone, hdue⟩
    · refine ⟨hlooked.ok.observe, fun _ => hlooked.kept.observe hlooked.lists, ?_⟩
      intro hne lock hlock
      rw [(hqueued _).1] at hne
      exact hlooked.queued hne lock (hactive _ lock hlock)
    have hok := (h.at_start l).of_alone halone
    refine ⟨hok.observe, fun hon => ?_, ?_⟩
    · apply Kept.observe hok.lists
      apply hok.kept
      unfold overdue
      rw [halone.expire_timer, halone.jiffies]
      exact hdue hon
    intro hne
    rw [(hqueued _).1, halone.queued] at hne
    exact absurd rfl hne
  cases hstep

/-- After `wakelocks_init` the main wake lock is held. -/
theorem wakelocks_init_ok (now : Nat) : Ok (wakelocks_init now) := by
  have hempty : Lists (no_locks now) := by
    constructor
    · simp [Active, no_locks]
    · simp [no_locks]
  have hdeleted := wake_lock_init_spec deleted_wake_locks hempty rfl .WAKE_LOCK_SUSPEND
  have hmain := wake_lock_init_spec main_wake_lock hdeleted.lists rfl .WAKE_LOCK_SUSPEND
  -- Initialising a lock does not make it active.
  have hnone : ∀ lock, ¬ Active (wake_lock_init (wake_lock_init (no_locks now) deleted_wake_locks
      .WAKE_LOCK_SUSPEND) main_wake_lock .WAKE_LOCK_SUSPEND) .WAKE_LOCK_SUSPEND lock := by
    intro lock
    rw [hmain.active, hdeleted.active]
    simp [Active, no_locks]
  have htaken := wake_lock_spec main_wake_lock hmain.lists
    (fun lock hactive => absurd hactive (hnone lock)) rfl rfl
  have hunknown := wake_lock_init_spec unknown_wakeup htaken.lists rfl .WAKE_LOCK_SUSPEND
  have hsync := wake_lock_init_spec sync_wake_lock hunknown.lists rfl .WAKE_LOCK_SUSPEND
  exact (htaken.ok.of_alone hunknown).of_alone hsync

theorem ok_of_reachable (h : (wakelocks.restrict fun s l => on_time s l = true).Reachable s) :
    Ok s := by
  apply System.invariant _ _ h
  · rintro s ⟨now, rfl⟩
    exact wakelocks_init_ok now
  intro s l s' hok hstep
  exact (wake_step_ok hok hstep.1 hstep.2).1

end runs

/-- **Main theorem.** In every run in which no suspend lock is looked at that
has been expired for more than half the range of `jiffies`, and no suspend
lock is initialised or destroyed while the timer is overdue: after every
operation on a suspend lock a lock without timeout is active, or one that
has not expired and the timer is pending for the latest expiry, or none
that has not expired and the work was queued since there was one; and the
work is never queued while a lock is held. -/
theorem suspend_never_lost (s s' : State) (l : Label)
    (h : (wakelocks.restrict fun s l => on_time s l = true).Reachable s)
    (htime : on_time s l = true) (hstep : wake_step s l = some s') :
    (on_suspend_lock (at_start s l) l.op = true → HeldForever s' ∨ HeldTimed s' ∨
      (∀ lock, Active s' .WAKE_LOCK_SUSPEND lock → unexpired s' lock = false) ∧
        s'.queued_since = true) ∧
    (s'.queued ≠ s.queued → ∀ lock, ¬ Active s' .WAKE_LOCK_SUSPEND lock) :=
  (wake_step_ok (ok_of_reachable h) htime hstep).2

/-- A lock with a timeout of 10 jiffies is taken and the main lock released. -/
theorem suspend_never_lost_timeout : ∃ s s',
    (wakelocks.restrict fun s l => on_time s l = true).Reachable s ∧
    wake_step s ⟨3, .wake_unlock main_wake_lock⟩ = some s' ∧ s'.expire_timer = some 10 ∧
    (HeldForever s' ∨ HeldTimed s' ∨
      (∀ lock, Active s' .WAKE_LOCK_SUSPEND lock → unexpired s' lock = false) ∧
        s'.queued_since = true) := by
  let run : List Label := [⟨0, .wake_lock_init 4 .WAKE_LOCK_SUSPEND⟩, ⟨0, .wake_lock_timeout 4 10⟩]
  let l : Label := ⟨3, .wake_unlock main_wake_lock⟩
  obtain ⟨s, hreach, htime, hsuspend, hlast⟩ : ∃ s,
      (wakelocks.restrict fun s l => on_time s l = true).Reachable s ∧ on_time s l = true ∧
      on_suspend_lock (at_start s l) l.op = true ∧
      (wake_step s l).map State.expire_timer = some (some 10) :=
    System.restrict_exists_of_replay run ⟨0, rfl⟩ (by decide +kernel)
  obtain ⟨s', hs', htimer⟩ := map_eq_some_iff.mp hlast
  exact ⟨s, s', hreach, hs', htimer, (suspend_never_lost s s' _ hreach htime hs').1 hsuspend⟩

/-- While the main lock is held, another one with a timeout of 10 jiffies
expires and stays on the list for half the range of `jiffies`. When the
main lock is released no lock is held, but the work is not queued, and the
timer is set for a time almost half the range ahead. -/
theorem suspend_lost_after_half_range : ∃ s s',
    (wakelocks.restrict fun s l => on_time s l = true).Reachable s ∧
    wake_step s ⟨100, .wake_unlock main_wake_lock⟩ = some s' ∧ s'.jiffies = 2 ^ 31 + 99 ∧
    (∀ lock, Active s' .WAKE_LOCK_SUSPEND lock → unexpired s' lock = false) ∧
    s'.queued = 0 ∧ s'.expire_timer = some (2 ^ 32 + 10) := by
  let run : List Label := [⟨0, .wake_lock_init 4 .WAKE_LOCK_SUSPEND⟩, ⟨0, .wake_lock_timeout 4 10⟩,
    ⟨2 ^ 31 - 1, .wake_lock main_wake_lock⟩]
  obtain ⟨s, hreach, hlast⟩ : ∃ s, (wakelocks.restrict fun s l => on_time s l = true).Reachable s ∧
      (wake_step s ⟨100, .wake_unlock main_wake_lock⟩).any (fun s' => decide
        (s'.jiffies = 2 ^ 31 + 99 ∧ s'.active_wake_locks .WAKE_LOCK_SUSPEND = [4] ∧
          unexpired s' 4 = false ∧ s'.queued = 0 ∧ s'.expire_timer = some (2 ^ 32 + 10))) = true :=
    System.restrict_exists_of_replay run ⟨0, rfl⟩ (by decide +kernel)
  obtain ⟨s', hs', hjiffies, hactive, hexpired, hqueued, htimer⟩ := System.exists_of_any hlast
  have hlists : Lists s' := by
    unfold wake_step at hs'
    split at hs'
    · cases hs'
      have hunlocked := wake_unlock_lists ((ok_of_reachable hreach).at_start
        ⟨100, .wake_unlock main_wake_lock⟩).lists main_wake_lock
      rcases observe_cases (wake_unlock (at_start s ⟨100, .wake_unlock main_wake_lock⟩)
        main_wake_lock) with heq | ⟨heq, _⟩
      · exact heq ▸ hunlocked
      · exact heq ▸ ⟨hunlocked.mem, hunlocked.nodup⟩
    cases hs'
  refine ⟨s, s', hreach, hs', hjiffies, ?_, hqueued, htimer⟩
  intro lock hlock
  have hmem := (hlists.mem _ lock).mpr hlock
  rw [hactive, mem_singleton] at hmem
  rw [hmem]
  exact hexpired

end Nubernel.Wakelock
