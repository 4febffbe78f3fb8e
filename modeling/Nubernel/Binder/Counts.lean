import Nubernel.Binder.Links

/-! # binder: the counts of nodes and references

Every call is a sequence of changes of a few kinds (`Change`), apart from
`binder_inc_ref`, whose count may overflow. Each kind keeps the links,
and the number of strong references that a node counts. As long as no
strong count overflows, that number is right in every state of a run.
-/

open Function List Option

namespace Nubernel.Binder

open LTS Rbtree

/-! ## The kinds of changes -/

/-- The largest `int`. -/
def INT_MAX : Int := 2 ^ 31 - 1

inductive Change (s : RefState) : RefState → Prop where
  /-- Local counts, flags and work of a node. -/
  | node {x : Nat} {n : Node} (n' : Node) (hn : s.nodes x = some n) (hlinks : n'.links = n.links)
      (hinternal : n'.internal_strong_refs = n.internal_strong_refs) : Change s (s.set_node x n')
  /-- A use of a reference is given back. -/
  | down {a : Nat} {r : Ref} {n : Node} (strong : Bool) (w : Option TodoList)
      (hr : s.refs a = some r) (hn : s.nodes r.node = some n) (hused : r.count strong ≠ 0) :
      Change s (counted_down s a r n strong w)
  | drop {a : Nat} {r : Ref} {n : Node} (w : Option TodoList) (hr : s.refs a = some r)
      (hn : s.nodes r.node = some n) : Change s (drop_ref s a r (dropped_node n a r.strong w))
  | add {proc x a desc : Nat} {n : Node} (hn : s.nodes x = some n) (hnew : s.refs a = none)
      (hlinked : Linked (add_ref s proc x a desc n)) : Change s (add_ref s proc x a desc n)
  | new {proc ptr cookie x : Nat} (hnew : s.nodes x = none)
      (hptr : binder_get_node s proc ptr = none) :
      Change s { s with
        nodes := Function.update s.nodes x
          (some ⟨some proc, [], 0, 0, 0, ptr, cookie, false, false, false, none⟩)
        procs := Function.update s.procs proc { s.procs proc with
          nodes := rb_insert (fun b => decide (ptr < s.node_ptr b)) x (s.procs proc).nodes } }
  /-- A node that nobody uses. -/
  | free {x : Nat} {n : Node} (n' : Node) (hn : s.nodes x = some n) (hrefs : n.refs = [])
      (hlinks : n'.links = n.links) (hstrong : n'.local_strong_refs = 0)
      (hweak : n'.local_weak_refs = 0) : Change s (free_node s x n')
  | release {proc x : Nat} {n : Node} (hn : s.nodes x = some n) (hproc : n.proc = some proc) :
      Change s (release_node s x n proc)
  | mgr (node : Option Nat) : Change s { s with binder_context_mgr_node := node }

theorem Linked.change {s s' : RefState} (h : Linked s) (hc : Change s s') : Linked s' := by
  cases hc with
  | node n' hn hlinks _ => exact h.of_same (SameLinks.set_node hn hlinks)
  | down strong w hr hn _ => exact h.of_same (SameLinks.counted_down hr hn strong w)
  | drop w hr hn => exact h.drop_ref hr hn rfl
  | add hn hnew hlinked => exact hlinked
  | new hnew hptr => exact h.insert_node hnew rfl hptr
  | free n' hn hrefs hlinks _ _ => exact h.free_node hn hrefs (congrArg (·.1) hlinks)
  | release hn hproc => exact h.release_node hn hproc
  | mgr node => exact ⟨h.aligned, h.node_of, h.ref_of, h.nodup, h.by_desc, h.by_node, h.by_ptr⟩

/-- A sequence of changes. -/
abbrev Changes : RefState → RefState → Prop := Relation.ReflTransGen Change

theorem Changes.preserves {P : RefState → Prop} {s s' : RefState} (h : Changes s s')
    (hP : ∀ s s', P s → Change s s' → P s') (hs : P s) : P s' := by
  induction h with
  | refl => exact hs
  | tail _ hc ih => exact hP _ _ ih hc

/-! ## What a step can do -/

section steps
variable {s s' : RefState} {x a : Nat} {n : Node} {r : Ref}

theorem dec_node_changes (hn : s.nodes x = some n) (strong : Bool) :
    ∃ s', binder_dec_node s x strong false = some s' ∧ Changes s s' := by
  have hinternal : (dec_node n strong false).internal_strong_refs = n.internal_strong_refs := by
    unfold dec_node
    split <;> rfl
  rcases dec_node_cases hn strong false with ⟨w, heq⟩ | ⟨heq, hrefs, h1, h2⟩
  · exact ⟨_, heq, .single (.node _ hn (dec_node_links n strong false) hinternal)⟩
  rw [show (dec_node n strong false).refs = n.refs from
    congrArg (·.2.2) (dec_node_links n strong false)] at hrefs
  exact ⟨_, heq, .single (.free _ hn hrefs (dec_node_links n strong false) h1 h2)⟩

theorem delete_ref_changes (h : Linked s) (hr : s.refs a = some r) :
    ∃ s', binder_delete_ref s a = some s' ∧ Changes s s' := by
  obtain ⟨n, hn, _⟩ := h.node_of a r hr
  obtain ⟨w, heq | ⟨heq, hrefs, h1, h2⟩⟩ := delete_ref_spec h hr hn
  · exact ⟨_, heq, .single (.drop w hr hn)⟩
  refine ⟨_, heq, .tail (.single (.drop w hr hn)) ?_⟩
  exact .free _ (update_self ..) hrefs rfl h1 h2

theorem dec_ref_changes (h : Linked s) (hr : s.refs a = some r) (strong : Bool) :
    ∃ s' ok, binder_dec_ref s a strong = some (s', ok) ∧ Changes s s' := by
  obtain ⟨n, hn, _⟩ := h.node_of a r hr
  rcases dec_ref_spec h hr hn strong with ⟨_, heq⟩ | ⟨hused, w, heq⟩
  · exact ⟨s, false, heq, .refl⟩
  have hdown : Change s (counted_down s a r n strong w) := .down strong w hr hn hused
  rw [heq]
  split
  · have hlinked := h.change hdown
    obtain ⟨r', hr', _⟩ := (SameLinks.counted_down hr hn strong w).ref hr
    obtain ⟨s', hdel, hchanges⟩ := delete_ref_changes hlinked hr'
    exact ⟨s', true, by rw [hdel]; rfl, .head hdown hchanges⟩
  exact ⟨_, true, rfl, .single hdown⟩

theorem get_ref_for_node_changes (h : Linked s) (hn : s.nodes x = some n) (proc : Nat)
    (addr : Option Nat) :
    ∃ s' ref, binder_get_ref_for_node s proc x addr = some (s', ref) ∧ Changes s s' := by
  rcases get_ref_for_node_spec h hn proc addr with heq | ⟨ref, r, heq, _⟩ |
    ⟨ref, desc, heq, hnew, _, hlinked⟩
  · exact ⟨s, none, heq, .refl⟩
  · exact ⟨s, some ref, heq, .refl⟩
  · exact ⟨_, some ref, heq, .single (.add hn hnew hlinked)⟩

/-- Without the node there is nothing to refer to. -/
theorem get_ref_for_node_dangling (hn : s.nodes x = none) {proc : Nat} {addr ref : Option Nat}
    (heq : binder_get_ref_for_node s proc x addr = some (s', ref)) : s' = s := by
  unfold binder_get_ref_for_node at heq
  simp only [hn] at heq
  split at heq
  · cases heq
    rfl
  split at heq
  · cases heq
    rfl
  split at heq
  · rename_i hnone
    cases hnone
  cases heq

theorem new_node_spec (s : RefState) (proc ptr cookie : Nat) (addr : Option Nat) :
    binder_new_node s proc ptr cookie addr = (s, none) ∨
    ∃ node, s.nodes node = none ∧ s.refs node = none ∧ binder_get_node s proc ptr = none ∧
      binder_new_node s proc ptr cookie addr = ({ s with
        nodes := update s.nodes node
          (some ⟨some proc, [], 0, 0, 0, ptr, cookie, false, false, false, none⟩)
        procs := update s.procs proc { s.procs proc with
          nodes := rb_insert (fun b => decide (ptr < s.node_ptr b)) node (s.procs proc).nodes } },
        some node) := by
  unfold binder_new_node
  cases hlook : binder_get_node s proc ptr with
  | some node => exact .inl rfl
  | none => ?_
  cases hk : s.kzalloc addr with
  | none => exact .inl rfl
  | some node =>
    obtain ⟨_, hunused⟩ := filter_eq_some_iff.mp hk
    simp only [RefState.unused, Bool.and_eq_true, isNone_iff_eq_none] at hunused
    exact .inr ⟨node, hunused.1.2, hunused.2, rfl, rfl⟩

theorem new_node_changes (s : RefState) (proc ptr cookie : Nat) (addr : Option Nat) :
    Changes s (binder_new_node s proc ptr cookie addr).1 := by
  rcases new_node_spec s proc ptr cookie addr with heq | ⟨node, hnew, _, hptr, heq⟩
  · rw [heq]
  rw [heq]
  exact .single (.new hnew hptr)

theorem set_context_mgr_changes (s : RefState) (proc : Nat) (addr : Option Nat) :
    Changes s (binder_set_context_mgr s proc addr) := by
  unfold binder_set_context_mgr
  have hnew := new_node_changes s proc 0 0 addr
  rcases new_node_spec s proc 0 0 addr with heq | ⟨node, _, _, _, heq⟩
  · rw [heq]
  rw [heq] at hnew ⊢
  simp only [update_self, map_some]
  have hcounts := hnew.tail (.node
    ⟨some proc, [], 0, toInt32 (0 + 1), toInt32 (0 + 1), 0, 0, true, true, false, none⟩
    (update_self ..) rfl rfl)
  exact hcounts.tail (.mgr (some node))

theorem work_node_changes (hn : s.nodes x = some n) :
    ∃ s', binder_work_node s x = some s' ∧ Changes s s' := by
  have hset : ∀ n' : Node, n'.links = n.links → n'.internal_strong_refs = n.internal_strong_refs →
      ∃ s', some (s.set_node x n') = some s' ∧ Changes s s' :=
    fun n' h1 h2 => ⟨_, rfl, .single (.node n' hn h1 h2)⟩
  unfold binder_work_node
  rw [hn]
  simp only
  iterate 4
    split
    · exact hset _ rfl rfl
  split
  · rename_i hunused
    simp only [Bool.and_eq_true, Bool.not_eq_true', Bool.or_eq_false_iff,
      decide_eq_false_iff_not, not_or, Decidable.not_not, Bool.not_eq_false',
      List.isEmpty_iff] at hunused
    obtain ⟨⟨⟨hrefs, hweak⟩, _⟩, _, hstrong⟩ := hunused
    exact ⟨_, rfl, .single (.free _ hn hrefs rfl hstrong hweak)⟩
  exact hset _ rfl rfl

/-- **Inversion.** A step is a strong or weak use of a reference, or a
sequence of changes. -/
theorem ref_step_cases (h : Linked s) {l : RefLabel} (hstep : ref_step s l = some s') :
    (∃ ref strong target_list ok, l = .binder_inc_ref ref strong target_list ∧
      binder_inc_ref s ref strong target_list = some (s', ok)) ∨ Changes s s' := by
  cases l with
  | binder_new_node proc ptr cookie addr =>
    cases hstep
    exact .inr (new_node_changes s proc ptr cookie addr)
  | binder_get_ref_for_node proc node addr =>
    right
    simp only [ref_step, map_eq_some_iff] at hstep
    obtain ⟨⟨s₁, ref⟩, heq, rfl⟩ := hstep
    cases hn : s.nodes node with
    | none =>
      -- Only a reference that is there already can be found.
      rw [get_ref_for_node_dangling hn heq]
    | some n => ?_
    obtain ⟨s₂, ref₂, heq₂, hchanges⟩ := get_ref_for_node_changes h hn proc addr
    rw [heq₂] at heq
    cases heq
    exact hchanges
  | binder_inc_ref ref strong target_list =>
    left
    simp only [ref_step, map_eq_some_iff] at hstep
    obtain ⟨⟨s₁, ok⟩, heq, rfl⟩ := hstep
    exact ⟨ref, strong, target_list, ok, rfl, heq⟩
  | binder_dec_ref ref strong =>
    right
    simp only [ref_step, map_eq_some_iff] at hstep
    obtain ⟨⟨s₁, ok⟩, heq, rfl⟩ := hstep
    cases hr : s.refs ref with
    | none => simp [binder_dec_ref, hr] at heq
    | some r => ?_
    obtain ⟨s₂, ok₂, heq₂, hchanges⟩ := dec_ref_changes h hr strong
    rw [heq₂] at heq
    cases heq
    exact hchanges
  | binder_delete_ref ref =>
    right
    simp only [ref_step] at hstep
    cases hr : s.refs ref with
    | none => simp [binder_delete_ref, hr] at hstep
    | some r => ?_
    obtain ⟨s₂, heq₂, hchanges⟩ := delete_ref_changes h hr
    rw [heq₂] at hstep
    cases hstep
    exact hchanges
  | binder_inc_node node strong target_list =>
    right
    cases hn : s.nodes node with
    | none => simp [ref_step, binder_inc_node, hn] at hstep
    | some n => ?_
    obtain ⟨w, ok, heq⟩ := inc_node_local n (decide (s.binder_context_mgr_node = some node)) strong
      target_list
    simp only [ref_step, binder_inc_node, hn, heq, map_some, Option.some.injEq] at hstep
    subst hstep
    exact .single (.node _ hn rfl rfl)
  | binder_dec_node node strong =>
    right
    cases hn : s.nodes node with
    | none => simp [ref_step, hn] at hstep
    | some n => ?_
    simp only [ref_step, hn] at hstep
    split at hstep
    · obtain ⟨s₂, heq₂, hchanges⟩ := dec_node_changes hn strong
      rw [heq₂] at hstep
      cases hstep
      exact hchanges
    cases hstep
  | binder_work_node node =>
    right
    cases hn : s.nodes node with
    | none => simp [ref_step, hn] at hstep
    | some n => ?_
    simp only [ref_step, hn] at hstep
    split at hstep
    · obtain ⟨s₂, heq₂, hchanges⟩ := work_node_changes hn
      rw [heq₂] at hstep
      cases hstep
      exact hchanges
    cases hstep
  | binder_set_context_mgr proc addr =>
    right
    simp only [ref_step] at hstep
    split at hstep
    · cases hstep
      exact set_context_mgr_changes s proc addr
    cases hstep
  | release_node node =>
    right
    cases hn : s.nodes node with
    | none => simp [ref_step, hn] at hstep
    | some n => ?_
    simp only [ref_step, hn] at hstep
    split at hstep
    · cases hstep
    rename_i proc hproc
    split at hstep
    · cases hstep
    cases hstep
    exact .single (.release hn hproc)

end steps

/-! ## Runs keep the links -/

variable {target_list : Option TodoList}

theorem inc_ref_inv {s s' : RefState} (h : Linked s) {a : Nat} {strong ok : Bool}
    (hinc : binder_inc_ref s a strong target_list = some (s', ok)) :
    ∃ r n w, s.refs a = some r ∧ s.nodes r.node = some n ∧
      s' = counted_up s a r n strong ok w := by
  cases hr : s.refs a with
  | none => simp [binder_inc_ref, hr] at hinc
  | some r => ?_
  obtain ⟨n, hn, _⟩ := h.node_of a r hr
  obtain ⟨w, ok', heq, _⟩ := inc_ref_spec hr hn strong target_list
  rw [heq] at hinc
  cases hinc
  exact ⟨r, n, w, rfl, hn, rfl⟩

theorem linked_of_reachable {s : RefState} (h : references.Reachable s) : Linked s := by
  refine System.invariant (P := Linked) ?_ ?_ h
  · rintro s rfl
    exact linked_init
  intro s l s' hlinked hstep
  rcases ref_step_cases hlinked hstep with ⟨ref, strong, target_list, ok, rfl, hinc⟩ | hchanges
  · obtain ⟨r, n, w, hr, hn, rfl⟩ := inc_ref_inv hlinked hinc
    exact hlinked.of_same (SameLinks.counted_up hr hn strong ok w)
  exact hchanges.preserves (fun s s' hs hc => hs.change hc) hlinked

/-! ## The number of strong references -/

/-- The strong count of the reference at `a`. -/
def RefState.strong (s : RefState) (a : Nat) : Int := (s.refs a).elim 0 Ref.strong

/-- The number of references on a list whose strong count is positive. -/
def strong_refs (s : RefState) (l : List Nat) : Nat := l.countP fun a => decide (0 < s.strong a)

/-- The strong counts have not overflown, and the nodes count the references
that are held strongly. -/
structure Counted (s : RefState) : Prop where
  range : ∀ a r, s.refs a = some r → 0 ≤ r.strong ∧ r.strong ≤ INT_MAX
  internal : ∀ x n, s.nodes x = some n → n.internal_strong_refs = strong_refs s n.refs

section counting
variable {s s' : RefState} {a : Nat} {l : List Nat}

theorem strong_refs_congr (h : ∀ b ∈ l, s'.refs b = s.refs b) : strong_refs s' l = strong_refs s l := by
  apply countP_congr
  intro b hb
  unfold RefState.strong
  rw [h b hb]

theorem strong_refs_erase (s : RefState) (ha : a ∈ l) :
    strong_refs s l = strong_refs s (l.erase a) + if 0 < s.strong a then 1 else 0 := by
  unfold strong_refs
  rw [(perm_cons_erase ha).countP_eq, countP_cons]
  simp

/-- Only one reference on the list changes. -/
theorem strong_refs_update (hnd : l.Nodup) (ha : a ∈ l) (h : ∀ b, b ≠ a → s'.refs b = s.refs b) :
    strong_refs s' l + (if 0 < s.strong a then 1 else 0) =
      strong_refs s l + if 0 < s'.strong a then 1 else 0 := by
  -- The others count as before.
  have hrest : strong_refs s' (l.erase a) = strong_refs s (l.erase a) := by
    apply strong_refs_congr
    intro b hb
    exact h b (hnd.mem_erase_iff.mp hb).1
  rw [strong_refs_erase s' ha, strong_refs_erase s ha, hrest]
  omega

section
variable (h : Linked s) (hc : Counted s)
include h hc

variable {x : Nat} {n : Node} {r : Ref}

/-- The count of a node is far from overflowing. -/
theorem Counted.internal_range
    (hn : s.nodes x = some n) : 0 ≤ n.internal_strong_refs ∧ n.internal_strong_refs ≤ 2 ^ 29 := by
  have hlen := length_of_aligned (h.nodup x n hn) (by
    intro a ha
    obtain ⟨r, hr, _⟩ := h.ref_of x n hn a ha
    exact h.aligned a r hr)
  have hle : strong_refs s n.refs ≤ n.refs.length := countP_le_length
  rw [hc.internal x n hn]
  omega

omit h in
/-- Only the reference at `a` and the one node that may list it change. -/
theorem Counted.of_ref {n' : Node} (hrefs : ∀ b, b ≠ a → s'.refs b = s.refs b)
    (hnodes : s'.nodes = update s.nodes x (some n')) (honly : ∀ y, a ∈ s.list y → y = x)
    (hrange : ∀ r', s'.refs a = some r' → 0 ≤ r'.strong ∧ r'.strong ≤ INT_MAX)
    (hcount : n'.internal_strong_refs = strong_refs s' n'.refs) : Counted s' := by
  constructor
  · intro b rb hb
    by_cases hba : b = a
    · exact hrange rb (hba ▸ hb)
    · exact hc.range b rb (hrefs b hba ▸ hb)
  intro y m hm
  rw [hnodes, update_apply] at hm
  split at hm
  · cases hm
    exact hcount
  -- Another node: the reference is not on its list.
  rename_i hy
  have hsame : strong_refs s' m.refs = strong_refs s m.refs := by
    refine strong_refs_congr fun b hb => hrefs b ?_
    rintro rfl
    exact hy (honly y (mem_list.mpr ⟨m, hm, hb⟩))
  rw [hc.internal y m hm, hsame]

/-- The counts of one reference change, and its node follows. -/
theorem Counted.of_update {r' : Ref} {n' : Node} (hr : s.refs a = some r)
    (hn : s.nodes r.node = some n) (hrefs : s'.refs = update s.refs a (some r'))
    (hnodes : s'.nodes = update s.nodes r.node (some n')) (hlist : n'.refs = n.refs)
    (hrange : 0 ≤ r'.strong ∧ r'.strong ≤ INT_MAX)
    (hinternal : n'.internal_strong_refs + (if 0 < r.strong then 1 else 0) =
      n.internal_strong_refs + if 0 < r'.strong then 1 else 0) : Counted s' := by
  have hother : ∀ b, b ≠ a → s'.refs b = s.refs b := by
    intro b hb
    rw [hrefs, update_of_ne hb]
  have hself : s'.refs a = some r' := by rw [hrefs, update_self]
  refine hc.of_ref hother hnodes (fun y => h.only_list hr) ?_ ?_
  · intro rb hb
    rw [hself] at hb
    cases hb
    exact hrange
  have hold : s.strong a = r.strong := by simp [RefState.strong, hr]
  have hnew : s'.strong a = r'.strong := by simp [RefState.strong, hself]
  have hcount := strong_refs_update (h.nodup _ n hn) (h.mem_refs hr hn) hother
  have hbefore := hc.internal _ n hn
  rw [hold, hnew] at hcount
  rw [hlist]
  -- The reference counts or not, before and after.
  by_cases h1 : 0 < r.strong <;> by_cases h2 : 0 < r'.strong <;>
    simp only [h1, h2, if_true, if_false] at hcount hinternal <;> omega

omit h hc in
/-- A node changes or goes, and its references are counted. -/
theorem Counted.of_node (hc : Counted s) {o : Option Node} (hrefs : s'.refs = s.refs)
    (hnodes : s'.nodes = update s.nodes x o)
    (hcounted : ∀ m, o = some m → m.internal_strong_refs = strong_refs s m.refs) : Counted s' := by
  have hsame : ∀ l, strong_refs s' l = strong_refs s l :=
    fun l => strong_refs_congr fun b _ => congrFun hrefs b
  constructor
  · rw [hrefs]
    exact hc.range
  intro y m hm
  rw [hsame]
  rw [hnodes, update_apply] at hm
  split at hm
  · exact hcounted m hm
  · exact hc.internal y m hm

theorem Counted.down (strong : Bool) (w : Option TodoList) (hr : s.refs a = some r)
    (hn : s.nodes r.node = some n) (hused : r.count strong ≠ 0) :
    Counted (counted_down s a r n strong w) := by
  have hr0 := hc.range _ r hr
  have hrange := hc.internal_range h hn
  unfold INT_MAX at hr0
  refine Counted.of_update h hc hr hn rfl rfl rfl ?_ ?_
  · cases strong with
    | true =>
      simp only [Ref.count, if_true] at hused
      simp only [Ref.set_count, Ref.count, if_true, INT_MAX]
      rw [toInt32_eq (by omega) (by omega)]
      omega
    | false => exact hc.range _ r hr
  cases strong with
  | true =>
    simp only [Ref.set_count, Ref.count, if_true, Bool.true_and, decide_eq_true_eq]
    rw [toInt32_eq (x := r.strong - 1) (by omega) (by omega),
      toInt32_eq (x := n.internal_strong_refs - 1) (by omega) (by omega)]
    split <;> split <;> split <;> omega
  | false => simp [Ref.set_count]

theorem Counted.drop (w : Option TodoList) (hr : s.refs a = some r) (hn : s.nodes r.node = some n) :
    Counted (drop_ref s a r (dropped_node n a r.strong w)) := by
  have hr0 := (hc.range _ r hr).1
  have hrange := hc.internal_range h hn
  have hother : ∀ b, b ≠ a → update s.refs a none b = s.refs b :=
    fun b hb => update_of_ne hb ..
  refine hc.of_ref hother rfl (fun y => h.only_list hr) ?_ ?_
  · intro rb hb
    simp [drop_ref] at hb
  -- The reference leaves the list; the node gives one back if it was strong.
  have hrest : strong_refs (drop_ref s a r (dropped_node n a r.strong w)) (n.refs.erase a) =
      strong_refs s (n.refs.erase a) := by
    apply strong_refs_congr
    intro b hb
    exact hother b ((h.nodup _ n hn).mem_erase_iff.mp hb).1
  have hsplit := strong_refs_erase s (h.mem_refs hr hn)
  have hbefore := hc.internal _ n hn
  have hstrong : s.strong a = r.strong := by simp [RefState.strong, hr]
  show (dropped_node n a r.strong w).internal_strong_refs = strong_refs _ (n.refs.erase a)
  rw [hrest]
  rw [hstrong] at hsplit
  unfold dropped_node
  by_cases hzero : r.strong = 0
  · simp [hzero] at hsplit ⊢
    omega
  have hpos : 0 < r.strong := by omega
  simp only [hpos, if_true] at hsplit
  simp only [ne_eq, hzero, not_false_eq_true, if_true]
  rw [toInt32_eq (by omega) (by omega)]
  omega

theorem Counted.add {proc desc : Nat} (hn : s.nodes x = some n)
    (hnew : s.refs a = none) : Counted (add_ref s proc x a desc n) := by
  have hother : ∀ b, b ≠ a → (add_ref s proc x a desc n).refs b = s.refs b :=
    fun b hb => update_of_ne hb ..
  have hfresh : ∀ y, a ∉ s.list y := by simp [h.list_iff, RefState.points, hnew]
  have hself : (add_ref s proc x a desc n).refs a = some ⟨proc, x, desc, 0, 0⟩ :=
    update_self ..
  refine hc.of_ref hother rfl (fun y hy => absurd hy (hfresh y)) ?_ ?_
  · intro rb hb
    rw [hself] at hb
    cases hb
    exact ⟨Int.le_refl 0, show (0 : Int) ≤ INT_MAX by decide⟩
  -- A new reference is not strong yet.
  have hzero : (add_ref s proc x a desc n).strong a = 0 := by simp [RefState.strong, hself]
  have hold : strong_refs (add_ref s proc x a desc n) n.refs = strong_refs s n.refs := by
    refine strong_refs_congr fun b hb => hother b ?_
    rintro rfl
    exact hfresh x (mem_list.mpr ⟨n, hn, hb⟩)
  rw [hc.internal _ n hn, ← hold]
  simp [strong_refs, hzero]

theorem Counted.change (hchange : Change s s') : Counted s' := by
  cases hchange with
  | node n' hn hlinks hinternal =>
    refine hc.of_node rfl rfl ?_
    intro m hm
    cases hm
    have hrefs : n'.refs = _ := congrArg (·.2.2) hlinks
    rw [hinternal, hrefs]
    exact hc.internal _ _ hn
  | down strong w hr hn hused => exact hc.down h strong w hr hn hused
  | drop w hr hn => exact hc.drop h w hr hn
  | add hn hnew hlinked => exact hc.add h hn hnew
  | new hnew hptr =>
    refine hc.of_node rfl rfl ?_
    intro m hm
    cases hm
    rfl
  | free n' hn hrefs hlinks hstrong hweak =>
    refine hc.of_node rfl rfl ?_
    intro m hm
    cases hm
  | release hn hproc =>
    refine hc.of_node rfl rfl ?_
    intro m hm
    have hcount := hc.internal _ _ hn
    cases hm
    exact hcount
  | mgr node => exact ⟨hc.range, hc.internal⟩

/-- `binder_inc_ref` that does not overflow. -/
theorem Counted.inc_ref {strong ok : Bool}
    (hinc : binder_inc_ref s a strong target_list = some (s', ok))
    (hroom : strong = true → s.strong a ≠ INT_MAX) : Counted s' := by
  obtain ⟨r, n, w, hr, hn, rfl⟩ := inc_ref_inv h hinc
  have hr0 := hc.range _ r hr
  have hrange := hc.internal_range h hn
  have hstrong : s.strong a = r.strong := by simp [RefState.strong, hr]
  unfold INT_MAX at hr0 hroom
  refine Counted.of_update h hc hr hn rfl rfl rfl ?_ ?_
  · cases ok with
    | false => exact hr0
    | true => ?_
    cases strong with
    | false => exact hr0
    | true => ?_
    have hne := hroom rfl
    simp only [Ref.set_count, Ref.count, if_true, INT_MAX]
    rw [toInt32_eq (by omega) (by omega)]
    omega
  cases ok with
  | false => simp
  | true => ?_
  cases strong with
  | false => simp [Ref.set_count]
  | true => ?_
  have hne := hroom rfl
  simp only [Ref.set_count, Ref.count, if_true, Bool.true_and, decide_eq_true_eq]
  rw [toInt32_eq (x := r.strong + 1) (by omega) (by omega),
    toInt32_eq (x := n.internal_strong_refs + 1) (by omega) (by omega)]
  split <;> split <;> split <;> omega

end

/-- The nodes that have been freed were not used any more. -/
def DeletedOk (s : RefState) : Prop :=
  ∀ n ∈ s.deleted, n.refs = [] ∧ n.local_strong_refs = 0 ∧ n.local_weak_refs = 0

theorem DeletedOk.change (hd : DeletedOk s) (hchange : Change s s') : DeletedOk s' := by
  cases hchange with
  | node => exact hd
  | down => exact hd
  | drop => exact hd
  | add => exact hd
  | new => exact hd
  -- The only change that adds to the nodes that have been freed.
  | free n' hn hrefs hlinks hstrong hweak =>
    intro m hm
    rcases mem_cons.mp hm with rfl | hm
    · have hlist : m.refs = _ := congrArg (·.2.2) hlinks
      exact ⟨hlist.trans hrefs, hstrong, hweak⟩
    exact hd m hm
  | release => exact hd
  | mgr => exact hd

end counting

/-! ## All runs -/

/-- A strong count is not at its largest value when it is counted up. -/
def strong_room (s : RefState) : RefLabel → Bool
  | .binder_inc_ref ref true _ => decide (s.strong ref ≠ INT_MAX)
  | _ => true

variable {s : RefState}

theorem counted_of_reachable
    (h : (references.restrict fun s l => strong_room s l = true).Reachable s) :
    Linked s ∧ Counted s ∧ DeletedOk s := by
  refine System.invariant (P := fun s => Linked s ∧ Counted s ∧ DeletedOk s) ?_ ?_ h
  · rintro s rfl
    refine ⟨linked_init, ⟨?_, ?_⟩, ?_⟩
    · intro a r hr
      cases hr
    · intro x n hn
      cases hn
    intro n hn
    cases hn
  rintro s l s' ⟨hlinked, hcounted, hdeleted⟩ ⟨hroom, hstep⟩
  rcases ref_step_cases hlinked hstep with ⟨ref, strong, target_list, ok, rfl, hinc⟩ | hchanges
  -- The only call that counts up, and the one that `strong_room` restricts.
  · have hcounted' : Counted s' := by
      apply hcounted.inc_ref hlinked hinc
      rintro rfl
      simpa [strong_room] using hroom
    obtain ⟨r, n, w, hr, hn, rfl⟩ := inc_ref_inv hlinked hinc
    exact ⟨hlinked.of_same (SameLinks.counted_up hr hn strong ok w), hcounted', hdeleted⟩
  refine hchanges.preserves (P := fun s => Linked s ∧ Counted s ∧ DeletedOk s) ?_
    ⟨hlinked, hcounted, hdeleted⟩
  rintro s s' ⟨hl, hc, hd⟩ hchange
  exact ⟨hl.change hchange, hc.change hl hchange, hd.change hchange⟩

/-- What holds of nodes and references between two calls. -/
structure RefsOk (s : RefState) : Prop where
  /-- A node counts the references to it whose strong count is positive. -/
  internal : ∀ x n, s.nodes x = some n →
    n.internal_strong_refs = (n.refs.filter fun a => decide (0 < s.strong a)).length
  /-- The list of a node has the references to it, each once. -/
  node_refs : ∀ x n, s.nodes x = some n → n.refs.Nodup ∧
    ∀ a, a ∈ n.refs ↔ ∃ r, s.refs a = some r ∧ r.node = x
  /-- Both trees of a process have its references, and there is one for each
  node at most. -/
  trees : ∀ p, (s.procs p).refs_by_desc.toList.Perm (s.procs p).refs_by_node.toList ∧
    (∀ a, a ∈ (s.procs p).refs_by_node.toList ↔ ∃ r, s.refs a = some r ∧ r.proc = p) ∧
    ((s.procs p).refs_by_node.toList.map s.ref_node).Nodup
  /-- A node has been freed only when no reference was on its list and both
  local counts were zero. -/
  deleted : ∀ n ∈ s.deleted, n.refs = [] ∧ n.local_strong_refs = 0 ∧ n.local_weak_refs = 0
  /-- No reference refers to a node that has been freed. -/
  live : ∀ a r, s.refs a = some r → (s.nodes r.node).isSome

theorem Linked.refsOk (h : Linked s) (hc : Counted s) (hd : DeletedOk s) :
    RefsOk s := by
  refine ⟨?_, ?_, ?_, hd, ?_⟩
  · intro x n hn
    rw [hc.internal x n hn, strong_refs, countP_eq_length_filter]
  · intro x n hn
    refine ⟨h.nodup x n hn, ?_⟩
    intro a
    constructor
    · exact h.ref_of x n hn a
    rintro ⟨r, hr, rfl⟩
    exact h.mem_refs hr hn
  · intro p
    have hdesc : Indexes s.ref_desc (s.owns_ref p) (s.procs p).refs_by_desc := h.by_desc p
    have hnode : Indexes s.ref_node (s.owns_ref p) (s.procs p).refs_by_node := h.by_node p
    refine ⟨?_, hnode.mem, ?_⟩
    · rw [perm_ext_iff_of_nodup hdesc.nodup hnode.nodup]
      intro a
      rw [hdesc.mem, hnode.mem]
    rw [Nodup, pairwise_map]
    apply hnode.sorted.imp
    intro a b hab
    exact Nat.ne_of_lt hab
  intro a r hr
  obtain ⟨n, hn, _⟩ := h.node_of a r hr
  rw [hn]
  rfl

/-- **Main theorem.** In every run in which no strong count overflows, the
counts of the nodes and the trees of the processes are right in every
state, nodes are freed when nobody uses them, and no call on a node or
reference that is there runs into a `BUG` or freed memory. -/
theorem reference_counts_ok (s : RefState)
    (h : (references.restrict fun s l => strong_room s l = true).Reachable s) :
    RefsOk s ∧
    (∀ a, (s.refs a).isSome → (∀ strong target_list, (binder_inc_ref s a strong target_list).isSome) ∧
      (∀ strong, (binder_dec_ref s a strong).isSome) ∧ (binder_delete_ref s a).isSome) ∧
    (∀ x, (s.nodes x).isSome → ∀ proc addr, (binder_get_ref_for_node s proc x addr).isSome) := by
  obtain ⟨hlinked, hcounted, hdeleted⟩ := counted_of_reachable h
  refine ⟨hlinked.refsOk hcounted hdeleted, ?_, ?_⟩
  · intro a ha
    obtain ⟨r, hr⟩ := isSome_iff_exists.mp ha
    obtain ⟨n, hn, _⟩ := hlinked.node_of a r hr
    refine ⟨?_, ?_, ?_⟩
    · intro strong target_list
      obtain ⟨w, ok, heq, _⟩ := inc_ref_spec hr hn strong target_list
      rw [heq]
      rfl
    · intro strong
      obtain ⟨s', ok, heq, _⟩ := dec_ref_changes hlinked hr strong
      rw [heq]
      rfl
    obtain ⟨s', heq, _⟩ := delete_ref_changes hlinked hr
    rw [heq]
    rfl
  intro x hx proc addr
  obtain ⟨n, hn⟩ := isSome_iff_exists.mp hx
  obtain ⟨s', ref, heq, _⟩ := get_ref_for_node_changes hlinked hn proc addr
  rw [heq]
  rfl

/-- Two processes with references to one node of a third. -/
theorem reference_counts_ok_two_refs : ∃ s : RefState,
    (s.nodes 0x1000).map (fun n => (n.internal_strong_refs, n.refs)) = some (1, [0x3000, 0x2000]) ∧
    s.strong 0x2000 = 2 ∧ s.strong 0x3000 = 0 ∧ RefsOk s := by
  obtain ⟨s, hreach, hnode, hstrong, hstrong'⟩ : ∃ s,
      (references.restrict fun s l => strong_room s l = true).Reachable s ∧
      (s.nodes 0x1000).map (fun n => (n.internal_strong_refs, n.refs)) =
        some (1, [0x3000, 0x2000]) ∧ s.strong 0x2000 = 2 ∧ s.strong 0x3000 = 0 :=
    System.restrict_exists_of_replay
      [.binder_new_node 1 0x100 0 (some 0x1000), .binder_get_ref_for_node 2 0x1000 (some 0x2000),
       .binder_inc_ref 0x2000 true (some (.thread 1)), .binder_inc_ref 0x2000 true none,
       .binder_get_ref_for_node 3 0x1000 (some 0x3000), .binder_inc_ref 0x3000 true none,
       .binder_inc_ref 0x3000 false none, .binder_dec_ref 0x3000 true] rfl (by decide +kernel)
  exact ⟨s, hnode, hstrong, hstrong', (reference_counts_ok s hreach).1⟩

/-- Strong uses of a reference that is held already. -/
theorem replay_inc_ref {a : Nat} {r : Ref} (k : Nat) (hr : s.refs a = some r)
    (hpos : 0 < r.strong) (hmax : r.strong + k ≤ INT_MAX) :
    (replicate k (.binder_inc_ref a true none)).foldlM ref_step s =
      some (s.set_ref a { r with strong := r.strong + k }) := by
  induction k generalizing s r with
  | zero =>
    simp [set_ref_self hr]
  | succ k ih => ?_
  have hstep : ref_step s (.binder_inc_ref a true none) =
      some (s.set_ref a { r with strong := r.strong + 1 }) := by
    have hne : r.strong ≠ 0 := by omega
    unfold INT_MAX at hmax
    simp only [ref_step, binder_inc_ref, hr, Ref.count, if_true, hne, if_false, Ref.set_count]
    rw [toInt32_eq (by omega) (by omega)]
    rfl
  rw [replicate_succ, foldlM_cons, hstep]
  simp only [bind_eq_bind, bind_some]
  rw [ih (r := { r with strong := r.strong + 1 }) (update_self ..)
    (by show 0 < r.strong + 1; omega) (by show r.strong + 1 + k ≤ INT_MAX; omega)]
  unfold RefState.set_ref
  simp only [update_idem]
  rw [show r.strong + 1 + (k : Int) = r.strong + ((k + 1 : Nat) : Int) by omega]

/-- After 2147483648 strong uses of a reference its count is negative, and the
node counts a reference that is not positive. -/
theorem strong_count_overflows : ∃ s : RefState, references.Reachable s ∧ ∃ n,
    s.nodes 0x1000 = some n ∧ n.refs = [0x2000] ∧ s.strong 0x2000 = -2147483648 ∧
    n.internal_strong_refs = 1 ∧ (n.refs.filter fun a => decide (0 < s.strong a)).length = 0 := by
  let run : List RefLabel :=
    [.binder_new_node 1 0x100 0 (some 0x1000), .binder_get_ref_for_node 2 0x1000 (some 0x2000),
     .binder_inc_ref 0x2000 true (some (.thread 1))]
  have hrun : (run.foldlM ref_step ref_init).map (fun s => ((s.nodes 0x1000).map fun n =>
        (n.internal_strong_refs, n.refs), s.refs 0x2000)) =
      some (some (1, [0x2000]), some ⟨2, 0x1000, 1, 1, 0⟩) := by
    decide +kernel
  obtain ⟨s₁, hs₁, hobs⟩ := map_eq_some_iff.mp hrun
  simp only [Prod.mk.injEq, map_eq_some_iff] at hobs
  obtain ⟨⟨n, hn, hinternal, hrefs⟩, hr⟩ := hobs
  -- The count is 1 now; the next calls bring it to `INT_MAX`.
  have hmany := replay_inc_ref 2147483646 hr (by decide) (by decide)
  -- The count is not 0, so the node is not asked again, and it wraps.
  have hlast : ref_step (s₁.set_ref 0x2000 ⟨2, 0x1000, 1, 1 + (2147483646 : Nat), 0⟩)
      (.binder_inc_ref 0x2000 true none) =
      some ((s₁.set_ref 0x2000 ⟨2, 0x1000, 1, 1 + (2147483646 : Nat), 0⟩).set_ref 0x2000
        ⟨2, 0x1000, 1, -2147483648, 0⟩) := by
    simp [ref_step, binder_inc_ref, RefState.set_ref, Ref.count, Ref.set_count, toInt32]
  refine ⟨_, ⟨ref_init, _, rfl, (System.steps_of_replay hs₁).append
    ((System.steps_of_replay hmany).append (.single hlast))⟩, n, hn, hrefs, ?_, hinternal, ?_⟩
  · simp [RefState.strong, RefState.set_ref]
  · simp [hrefs, RefState.strong, RefState.set_ref]

/-! ## Handles -/

/-- **Handles and nodes.** Whatever calls came before, `binder_get_ref_for_node` runs into no
`BUG`; its reference is one of the process to the node, and is found again by its handle; and
all handles of all processes name the references that they named. -/
theorem handles_name_nodes {s : RefState} (h : references.Reachable s) {x : Nat} {n : Node}
    (hn : s.nodes x = some n) (proc : Nat) (addr : Option Nat) :
    ∃ s' ref, binder_get_ref_for_node s proc x addr = some (s', ref) ∧
      (∀ a, ref = some a → ∃ r, s'.refs a = some r ∧ r.node = x ∧
        binder_get_ref s' proc r.desc = some a) ∧
      ∀ q d a, binder_get_ref s q d = some a → binder_get_ref s' q d = some a ∧
        s'.refs a = s.refs a := by
  have hlinked := linked_of_reachable h
  rcases get_ref_for_node_spec hlinked hn proc addr with
    heq | ⟨ref, r, heq, hr, hproc, hnode⟩ | ⟨ref, desc, heq, hnew, _, hlinked'⟩
  · exact ⟨s, none, heq, nofun, fun q d a ha => ⟨ha, rfl⟩⟩
  · refine ⟨s, some ref, heq, ?_, fun q d a ha => ⟨ha, rfl⟩⟩
    rintro _ ⟨⟩
    refine ⟨r, hr, hnode, (hlinked.by_desc proc).lookup_some.mpr ⟨⟨r, hr, hproc⟩, ?_⟩⟩
    simp [RefState.ref_desc, hr]
  have hself : (add_ref s proc x ref desc n).refs ref = some ⟨proc, x, desc, 0, 0⟩ :=
    update_self ..
  refine ⟨_, some ref, heq, ?_, ?_⟩
  · rintro _ ⟨⟩
    refine ⟨_, hself, rfl, (hlinked'.by_desc proc).lookup_some.mpr ⟨⟨_, hself, rfl⟩, ?_⟩⟩
    simp [RefState.ref_desc, hself]
  intro q d a ha
  obtain ⟨⟨r, hr, hproc⟩, hkey⟩ := (hlinked.by_desc q).lookup_some.mp ha
  have hne : a ≠ ref := by
    rintro rfl
    rw [hnew] at hr
    cases hr
  have hkept : (add_ref s proc x ref desc n).refs a = s.refs a := update_of_ne hne ..
  refine ⟨(hlinked'.by_desc q).lookup_some.mpr ⟨⟨r, hkept.trans hr, hproc⟩, ?_⟩, hkept⟩
  rw [← hkey]
  simp only [RefState.ref_desc, hkept]

theorem handles_name_nodes_first : ∃ (s s' : RefState) (r : Ref), references.Reachable s ∧
    binder_get_ref_for_node s 2 0x1000 (some 0x2000) = some (s', some 0x2000) ∧
    binder_get_ref s' 2 r.desc = some 0x2000 := by
  obtain ⟨s, hreach, hnode, href⟩ : ∃ s, references.Reachable s ∧ (s.nodes 0x1000).isSome ∧
      (binder_get_ref_for_node s 2 0x1000 (some 0x2000)).map Prod.snd = some (some 0x2000) :=
    System.exists_of_replay [.binder_new_node 1 0x100 0 (some 0x1000)] rfl (by decide +kernel)
  obtain ⟨n, hn⟩ := isSome_iff_exists.mp hnode
  obtain ⟨s', ref, heq, hname, _⟩ := handles_name_nodes hreach hn 2 (some 0x2000)
  rw [heq] at href
  cases href
  obtain ⟨r, _, _, hback⟩ := hname _ rfl
  exact ⟨s, s', r, hreach, heq, hback⟩

end Nubernel.Binder
