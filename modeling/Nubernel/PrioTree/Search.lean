import Nubernel.PrioTree.Insert

/-! # Priority search trees: searching

An iterator walks through the tree and leaves out what cannot overlap the
interval that is asked for. At each point of its loops we say exactly which
positions are still to come; the nodes that it returns are those of them that
overlap.
-/

open Bool List Nat Option Positions

namespace Nubernel.PrioTree

/-! ## Masks and values -/

/-- The mask of an iterator at a level. -/
def iterMask (bits n : Nat) : Nat := if n = bits + 32 then ULONG_MAX else levelMask bits n

theorem levelMask_ne_max (bits n : Nat) : levelMask bits n ≠ ULONG_MAX := by
  have hpow : ∀ k : Nat, 2 ^ k ≠ ULONG_MAX := by
    intro k heq
    unfold ULONG_MAX at heq
    cases k with
    | zero => exact absurd heq (by decide)
    | succ k =>
      omega
  unfold levelMask
  split <;> exact hpow _

variable {bits n v k : Nat}

/-- One level up, within the bits of `start` or within those of the size. -/
theorem levelMask_pred (hbits : bits ≤ 32) (hn : n < bits + 31)
    (hne : n + 1 ≠ bits) : levelMask bits (n + 1) <<< 1 % 2 ^ 32 = levelMask bits n := by
  have hshift : ∀ k : Nat, k < 31 → 2 ^ k <<< 1 % 2 ^ 32 = 2 ^ (k + 1) := by
    intro k hk
    rw [shiftLeft_eq, pow_one, ← pow_succ]
    exact Nat.mod_eq_of_lt (Nat.pow_lt_pow_right (by decide) (by omega))
  unfold levelMask
  by_cases hlt : n + 1 < bits
  · rw [if_pos hlt, if_pos (by omega), hshift _ (by omega),
      show bits - 1 - (n + 1) + 1 = bits - 1 - n by omega]
  rw [if_neg hlt, if_neg (by omega), hshift _ (by omega),
    show 31 - (n + 1 - bits) % 32 + 1 = 31 - (n - bits) % 32 by omega]

theorem levelMask_last : levelMask bits (bits + 31) = 1 := by
  unfold levelMask
  rw [if_neg (by omega), show 31 - (bits + 31 - bits) % 32 = 0 by omega]
  rfl

theorem levelMask_before (h : n + 1 = bits) : levelMask bits n = 1 := by
  unfold levelMask
  rw [if_pos (by omega), show bits - 1 - n = 0 by omega]
  rfl

/-- A bit that is free may be set by `|`. -/
theorem or_two_pow (hdvd : 2 ^ (k + 1) ∣ v) : v ||| 2 ^ k = v + 2 ^ k := by
  obtain ⟨m, rfl⟩ := hdvd
  exact (Nat.two_pow_add_eq_or_of_lt (Nat.pow_lt_pow_right (by decide) (Nat.lt_succ_self k)) m).symm

theorem testBit_of_dvd (hdvd : 2 ^ (k + 1) ∣ v) : v.testBit k = false := by
  obtain ⟨m, rfl⟩ := hdvd
  rw [testBit_two_pow_mul, decide_eq_false (by omega), Bool.false_and]

/-- The bit is taken out again by `^`. -/
theorem xor_two_pow (hdvd : 2 ^ (k + 1) ∣ v) : (v + 2 ^ k) ^^^ 2 ^ k = v := by
  rw [← or_two_pow hdvd]
  refine eq_of_testBit_eq fun i => ?_
  rw [testBit_xor, testBit_or, testBit_two_pow]
  by_cases hik : k = i
  · rw [← hik, testBit_of_dvd hdvd, decide_eq_true rfl]
    rfl
  rw [decide_eq_false hik, Bool.or_false, Bool.xor_false]

/-- Where a level still has a bit of `start`. -/
theorem value_bit {π : Pos} (hlt : π.length < bits) :
    levelMask bits π.length = 2 ^ (bits - 1 - π.length) ∧
      2 ^ (bits - 1 - π.length + 1) ∣ value bits π := by
  have hdvd := @value_dvd bits π (by omega)
  rw [show bits - π.length = bits - 1 - π.length + 1 by omega] at hdvd
  unfold levelMask
  rw [if_pos hlt]
  exact ⟨rfl, hdvd⟩

/-- What `prio_tree_parent` takes for the value. -/
theorem value_up (bits : Nat) (b : Bool) (π : Pos) :
    (if (if π.length < bits then 0 else π.length - bits + 1) = 0 ∧
        value bits (b :: π) &&& levelMask bits π.length ≠ 0
      then value bits (b :: π) ^^^ levelMask bits π.length else value bits (b :: π)) =
    value bits π := by
  by_cases hlt : π.length < bits
  · obtain ⟨hlm, hdvd⟩ := value_bit hlt
    rw [hlm, if_pos hlt]
    cases b with
    | false =>
      have hval : value bits (false :: π) = value bits π := by
        rw [value, if_neg (by simp), add_zero]
      have hfree := testBit_of_dvd hdvd
      rw [hval, if_neg]
      intro h
      rw [(and_two_pow_iff _ _).mp h.2] at hfree
      cases hfree
    | true => ?_
    have hval : value bits (true :: π) = value bits π + 2 ^ (bits - 1 - π.length) := by
      rw [value, if_pos ⟨rfl, hlt⟩]
    have hbit : (value bits π + 2 ^ (bits - 1 - π.length)).testBit (bits - 1 - π.length) =
        true := by
      rw [← or_two_pow hdvd, testBit_or, testBit_two_pow, decide_eq_true rfl, Bool.or_true]
    rw [hval, if_pos ⟨rfl, (and_two_pow_iff _ _).mpr hbit⟩, xor_two_pow hdvd]
  rw [if_neg hlt, if_neg fun h => succ_ne_zero _ h.1, value_of_le (by omega)]

/-! ## The place of an iterator -/

/-- The iterator is at `π`. -/
structure At (s : State) (lay : Layout) (r h : Nat) (iter : Iter) (π : Pos) : Prop where
  cur : lay π = some iter.cur
  mask : iter.mask = iterMask s.root.index_bits π.length
  value : iter.value = value s.root.index_bits π
  level : iter.size_level =
    if π.length < s.root.index_bits then 0 else π.length - s.root.index_bits + 1
  r_index : iter.r_index = r
  h_index : iter.h_index = h

section moves
variable {s : State} {lay : Layout} {r h : Nat} {iter : Iter} {π : Pos}

/-- What `prio_tree_right` takes for the value. -/
theorem At.right_value (hat : At s lay r h iter π)
    (hlen : π.length < s.root.index_bits + 32) :
    (if iter.size_level ≠ 0 then iter.value else iter.value ||| iter.mask) =
      PrioTree.value s.root.index_bits (true :: π) := by
  rw [hat.level, hat.value, hat.mask]
  unfold iterMask
  rw [if_neg (show ¬π.length = s.root.index_bits + 32 by omega)]
  by_cases hlt : π.length < s.root.index_bits
  · obtain ⟨hlm, hdvd⟩ := value_bit hlt
    rw [hlm, if_pos hlt, if_neg (fun h => h rfl), or_two_pow hdvd, PrioTree.value,
      if_pos ⟨rfl, hlt⟩]
  rw [if_neg hlt, if_pos (succ_ne_zero _), value_of_le (by omega)]

variable {b : Bool} {σ τ : Pos} (ht : Tree s.root.index_bits s lay)
include ht

theorem At.descend {child : Nat} (hat : At s lay r h iter π) (hchild : lay (b :: π) = some child) :
    ∃ iter', descend s.heap { iter with value := PrioTree.value s.root.index_bits (b :: π) } child =
      some iter' ∧ At s lay r h iter' (b :: π) := by
  have hh := ht.links.hang
  have hdepth := ht.wf.depth ht.bits_le hh.closed hchild
  rw [length_cons] at hdepth
  have hmask : iter.mask = levelMask s.root.index_bits π.length := by
    rw [hat.mask]
    unfold iterMask
    rw [if_neg (by omega)]
  have hlevel := hat.level
  have hmask' := levelMask_pos s.root.index_bits (π.length + 1)
  unfold PrioTree.descend
  simp only [hmask, levelMask_succ]
  by_cases hwrap : π.length + 1 = s.root.index_bits ∨
      s.root.index_bits ≤ π.length ∧ (π.length - s.root.index_bits) % 32 = 31
  · simp only [if_pos hwrap]
    rw [if_neg (fun h => h rfl)]
    rcases hwrap with hlast | ⟨hge, hmod⟩
    · -- The bits of `start` are used up.
      rw [if_pos (by omega)] at hlevel
      rw [if_neg (fun h => h hlevel)]
      refine ⟨_, rfl, hchild, ?_, rfl, ?_, hat.r_index, hat.h_index⟩
      · unfold iterMask levelMask
        rw [length_cons, if_neg (by omega), if_neg (by omega),
          show 31 - (π.length + 1 - s.root.index_bits) % 32 = 31 by omega]
        rfl
      rw [length_cons, if_neg (by omega)]
      show 1 = _
      omega
    -- The last level.
    rw [if_neg (by omega)] at hlevel
    have hnone : ∀ c, lay (c :: b :: π) = none := by
      intro c
      by_contra hsome
      obtain ⟨q, hq⟩ := ne_none_iff_exists'.mp hsome
      have hdepth' := ht.wf.depth ht.bits_le hh.closed hq
      simp only [length_cons] at hdepth'
      omega
    rw [if_pos (by rw [hlevel]; exact succ_ne_zero _), if_pos
      ⟨(hh.left_empty hchild).mpr (hnone false), (hh.right_empty hchild).mpr (hnone true)⟩]
    refine ⟨_, rfl, hchild, ?_, rfl, ?_, hat.r_index, hat.h_index⟩
    · unfold iterMask
      rw [length_cons, if_pos (by omega)]
    rw [length_cons, if_neg (by omega)]
    show iter.size_level + 1 = _
    omega
  simp only [if_neg hwrap]
  rw [if_pos (ne_of_gt hmask')]
  have hnext : levelMask s.root.index_bits (π.length + 1) =
      iterMask s.root.index_bits (b :: π).length := by
    unfold iterMask
    rw [length_cons, if_neg (by omega)]
  by_cases hlt : π.length < s.root.index_bits
  · rw [if_pos hlt] at hlevel
    rw [if_neg (fun h => h hlevel)]
    refine ⟨_, rfl, hchild, hnext, rfl, ?_, hat.r_index, hat.h_index⟩
    rw [length_cons, if_pos (by omega)]
    exact hlevel
  rw [if_neg hlt] at hlevel
  rw [if_pos (by rw [hlevel]; exact succ_ne_zero _)]
  refine ⟨_, rfl, hchild, hnext, rfl, ?_, hat.r_index, hat.h_index⟩
  rw [length_cons, if_neg (by omega)]
  show iter.size_level + 1 = _
  omega

theorem At.up (hat : At s lay r h iter (b :: π)) :
    At s lay r h (prio_tree_parent s.heap iter) π := by
  have hh := ht.links.hang
  obtain ⟨q, hq, hparent⟩ := hh.exists_parent hat.cur
  have hdepth := ht.wf.depth ht.bits_le hh.closed hat.cur
  have hlevel := hat.level
  have hmask := hat.mask
  unfold iterMask at hmask
  rw [length_cons] at hdepth hlevel hmask
  -- The mask.
  have hmask' : (if iter.mask = ULONG_MAX then 1 else if iter.size_level = 1 then 1
      else iter.mask <<< 1 % 2 ^ 32) = levelMask s.root.index_bits π.length := by
    by_cases hlast : π.length + 1 = s.root.index_bits + 32
    · rw [if_pos hlast] at hmask
      rw [if_pos hmask, show π.length = s.root.index_bits + 31 by omega, levelMask_last]
    rw [if_neg hlast] at hmask
    rw [if_neg (by rw [hmask]; exact levelMask_ne_max _ _)]
    by_cases hbits : π.length + 1 = s.root.index_bits
    · rw [if_neg (by omega)] at hlevel
      rw [if_pos (by omega), levelMask_before hbits]
    rw [if_neg (by split at hlevel <;> omega), hmask]
    exact levelMask_pred ht.bits_le (by omega) hbits
  have hsize : (if iter.size_level ≠ 0 then iter.size_level - 1 else iter.size_level) =
      if π.length < s.root.index_bits then 0 else π.length - s.root.index_bits + 1 := by
    by_cases hlt : π.length + 1 < s.root.index_bits
    · rw [if_pos hlt] at hlevel
      rw [if_neg (fun h => h hlevel), hlevel, if_pos (by omega)]
    rw [if_neg hlt] at hlevel
    rw [if_pos (by omega)]
    by_cases hlt' : π.length < s.root.index_bits
    · rw [if_pos hlt']
      omega
    rw [if_neg hlt']
    omega
  unfold prio_tree_parent
  simp only [hmask', hsize]
  refine ⟨?_, ?_, ?_, rfl, hat.r_index, hat.h_index⟩
  · rw [hparent]
    exact hq
  · show levelMask s.root.index_bits π.length = iterMask s.root.index_bits π.length
    unfold iterMask
    rw [if_neg (by omega)]
  simp only [hat.value]
  exact value_up _ b π

/-! ## What is still to come -/

/-- The interval of `p` overlaps the one that is asked for. -/
def Overlaps (heap : Heap) (r h p : Nat) : Prop := heap.start p ≤ h ∧ r ≤ heap.last p

instance (heap : Heap) (r h p : Nat) : Decidable (Overlaps heap r h p) :=
  inferInstanceAs (Decidable (_ ∧ _))

/-- Whether the node at a position is one of those asked for. -/
def hits (heap : Heap) (lay : Layout) (r h : Nat) (σ : Pos) : Bool :=
  (lay σ).any fun p => decide (Overlaps heap r h p)

/-- The positions that are still to come, for each of the loops. -/
def todo (lay : Layout) : Loop → Pos → List Pos
  | .left, π =>
    preorder lay (LEVELS - (π.length + 1)) (false :: π) ++
      (preorder lay (LEVELS - (π.length + 1)) (true :: π) ++ rest lay LEVELS π)
  | .right, π => preorder lay (LEVELS - (π.length + 1)) (true :: π) ++ rest lay LEVELS π
  | .up, π => rest lay LEVELS π

omit ht in
theorem todo_child {child : Nat} (hchild : lay (b :: π) = some child)
    (hlen : π.length + 1 < LEVELS) :
    todo lay (if b then .right else .left) π = (b :: π) :: todo lay .left (b :: π) := by
  obtain ⟨d, hd⟩ : ∃ d, LEVELS - (π.length + 1) = d + 1 := ⟨LEVELS - (π.length + 2), by omega⟩
  have hd' : LEVELS - ((b :: π).length + 1) = d := by
    rw [length_cons]
    omega
  cases b with
  | false =>
    show preorder lay (LEVELS - (π.length + 1)) (false :: π) ++
      (preorder lay (LEVELS - (π.length + 1)) (true :: π) ++ rest lay LEVELS π) = _
    rw [hd, preorder_some hchild]
    simp only [todo, hd', rest, hd, cons_append, append_assoc]
  | true =>
    show preorder lay (LEVELS - (π.length + 1)) (true :: π) ++ rest lay LEVELS π = _
    rw [hd, preorder_some hchild]
    simp only [todo, hd', rest, cons_append, append_assoc]

/-- Nothing at or below the position is asked for. -/
def Pruned (s : State) (lay : Layout) (r h : Nat) (τ : Pos) : Prop :=
  ∀ σ p, τ <:+ σ → lay σ = some p → ¬Overlaps s.heap r h p

omit ht in
theorem hits_eq_false (h' : ∀ p, lay σ = some p → ¬Overlaps s.heap r h p) :
    hits s.heap lay r h σ = false := by
  unfold hits
  cases hp : lay σ with
  | none => rfl
  | some p => exact decide_eq_false (h' p hp)

omit ht in
theorem hits_some {p : Nat} (hp : lay σ = some p) :
    hits s.heap lay r h σ = decide (Overlaps s.heap r h p) := by
  unfold hits
  rw [hp]
  rfl

omit ht in
theorem Pruned.filter (hpruned : Pruned s lay r h τ) (d : Nat) :
    (preorder lay d τ).filter (hits s.heap lay r h) = [] := by
  refine filter_eq_nil_iff.mpr fun σ hσ => ?_
  rw [hits_eq_false fun p hp => hpruned σ p (of_mem_preorder hσ).1 hp]
  exact false_ne_true

/-- A node that is not there, or ends before the interval. -/
theorem pruned_of_last (hlast : ∀ p, lay τ = some p → s.heap.last p < r) : Pruned s lay r h τ := by
  intro σ p hσ hp hover
  have hh := ht.links.hang
  obtain ⟨top, htop⟩ := ne_none_iff_exists'.mp
    (hh.closed.of_suffix hσ (by rw [hp]; exact some_ne_none p))
  have hlast := hlast top htop
  have hle : s.heap.last p ≤ s.heap.last top := by
    by_cases heq : τ = σ
    · subst heq
      rw [htop, some.injEq] at hp
      rw [hp]
    have hprior := ht.wf.above hh.closed htop hp hσ heq
    unfold Prior at hprior
    omega
  have hr := hover.2
  omega

/-- A position that stands for larger values of `start`. -/
theorem pruned_of_value (hvalue : h < PrioTree.value s.root.index_bits τ) : Pruned s lay r h τ := by
  intro σ p hσ hp hover
  have hle := value_le (ht.wf.fits hp) ((ht.wf.follows hp).of_suffix hσ)
  have hstart := hover.1
  omega

section
variable (hat : At s lay r h iter π)
include hat

/-- **`prio_tree_left`** goes down, or there is nothing to look for. -/
theorem prio_tree_left_spec :
    (∃ iter', prio_tree_left s.heap iter = some (true, iter') ∧ At s lay r h iter' (false :: π) ∧
      r ≤ s.heap.last iter'.cur) ∨
      prio_tree_left s.heap iter = some (false, iter) ∧ Pruned s lay r h (false :: π) := by
  have hh := ht.links.hang
  unfold prio_tree_left
  cases hc : lay (false :: π) with
  | none =>
    rw [if_pos ((hh.left_empty hat.cur).mpr hc)]
    exact .inr ⟨rfl, pruned_of_last ht (by simp [hc])⟩
  | some child => ?_
  have hne : ¬prio_tree_left_empty s.heap iter.cur = true := fun hempty => by
    rw [(hh.left_empty hat.cur).mp hempty] at hc
    cases hc
  rw [if_neg hne, hh.left_eq hat.cur hc, hat.r_index]
  by_cases hlast : r ≤ s.heap.last child
  · left
    obtain ⟨iter', hdesc, hat'⟩ := hat.descend ht hc
    have hval : PrioTree.value s.root.index_bits (false :: π) = iter.value := by
      rw [PrioTree.value, if_neg (by simp), add_zero, hat.value]
    rw [hval] at hdesc
    rw [if_pos hlast, hdesc]
    refine ⟨iter', rfl, hat', ?_⟩
    rw [← some.inj (hc.symm.trans hat'.cur)]
    exact hlast
  rw [if_neg hlast]
  refine .inr ⟨rfl, pruned_of_last ht fun child' hchild => ?_⟩
  rw [hc, some.injEq] at hchild
  rw [← hchild]
  omega

/-- **`prio_tree_right`** goes down, or there is nothing to look for. -/
theorem prio_tree_right_spec :
    (∃ iter', prio_tree_right s.heap iter = some (true, iter') ∧ At s lay r h iter' (true :: π) ∧
      r ≤ s.heap.last iter'.cur) ∨
      prio_tree_right s.heap iter = some (false, iter) ∧ Pruned s lay r h (true :: π) := by
  have hh := ht.links.hang
  unfold prio_tree_right
  cases hc : lay (true :: π) with
  | none =>
    rw [if_pos ((hh.right_empty hat.cur).mpr hc)]
    exact .inr ⟨rfl, pruned_of_last ht (by simp [hc])⟩
  | some child => ?_
  have hne : ¬prio_tree_right_empty s.heap iter.cur = true := fun hempty => by
    rw [(hh.right_empty hat.cur).mp hempty] at hc
    cases hc
  have hdepth := ht.wf.depth ht.bits_le hh.closed hc
  rw [length_cons] at hdepth
  rw [if_neg hne, hh.right_eq hat.cur hc, hat.r_index, hat.h_index]
  simp only [hat.right_value (by omega)]
  by_cases hvalue : h < PrioTree.value s.root.index_bits (true :: π)
  · rw [if_pos hvalue]
    exact .inr ⟨rfl, pruned_of_value ht hvalue⟩
  rw [if_neg hvalue]
  by_cases hlast : r ≤ s.heap.last child
  · left
    obtain ⟨iter', hdesc, hat'⟩ := hat.descend ht hc
    rw [hat.r_index, hat.h_index] at hdesc
    rw [if_pos hlast, hdesc]
    refine ⟨iter', rfl, hat', ?_⟩
    rw [← some.inj (hc.symm.trans hat'.cur)]
    exact hlast
  rw [if_neg hlast]
  refine .inr ⟨rfl, pruned_of_last ht fun child' hchild => ?_⟩
  rw [hc, some.injEq] at hchild
  rw [← hchild]
  omega

omit ht in
theorem At.overlap_iff :
    overlap s.heap iter = true ↔ Overlaps s.heap r h iter.cur := by
  unfold overlap Overlaps
  rw [decide_eq_true_eq, hat.r_index, hat.h_index]

omit ht in
theorem At.hits_eq :
    hits s.heap lay r h π = overlap s.heap iter := by
  rw [hits_some hat.cur, Bool.eq_iff_iff, decide_eq_true_eq, hat.overlap_iff]

theorem At.depth :
    π.length + 1 < LEVELS := by
  have hdepth := ht.wf.depth ht.bits_le ht.links.hang.closed hat.cur
  have hbits := ht.bits_le
  unfold LEVELS
  omega

end

/-! ## The loops of `prio_tree_next` -/

/-- How many rounds a loop has left. -/
def cost (lay : Layout) (loop : Loop) (π : Pos) : Nat :=
  (todo lay loop π).length * 5 + π.length * 3 +
    match loop with
    | .left => 2
    | .right => 1
    | .up => 0

/-- What is returned when `ahead` is still to come: the first node of it that is asked
for, with the iterator there, or NULL. -/
def Answer (s : State) (lay : Layout) (r h : Nat) (ahead : List Pos)
    (result : Option (Nat × Iter)) : Prop :=
  (∃ iter', result = some (0, iter') ∧ ahead.filter (hits s.heap lay r h) = []) ∨
    ∃ iter' σ p, result = some (p, iter') ∧ lay σ = some p ∧ At s lay r h iter' σ ∧
      ahead.filter (hits s.heap lay r h) =
        σ :: (todo lay .left σ).filter (hits s.heap lay r h)

omit ht in
theorem Answer.congr {ahead ahead' : List Pos} {result : Option (Nat × Iter)}
    (hans : Answer s lay r h ahead result)
    (heq : ahead'.filter (hits s.heap lay r h) = ahead.filter (hits s.heap lay r h)) :
    Answer s lay r h ahead' result := by
  unfold Answer
  rw [heq]
  exact hans

variable {fuel : Nat}

omit ht in
/-- The node that has been reached is looked at. -/
theorem Answer.visit {iter' : Iter} {result : Option (Nat × Iter)} (hat : At s lay r h iter' τ)
    (hnext : overlap s.heap iter' = false → Answer s lay r h (todo lay .left τ) result) :
    Answer s lay r h (τ :: todo lay .left τ)
      (if overlap s.heap iter' then some (iter'.cur, iter') else result) := by
  cases hover : overlap s.heap iter' with
  | true =>
    refine .inr ⟨iter', τ, iter'.cur, if_pos rfl, hat.cur, hat, ?_⟩
    exact filter_cons_of_pos (by rw [hat.hits_eq, hover])
  | false => ?_
  refine (hnext hover).congr (filter_cons_of_neg ?_)
  rw [hat.hits_eq, hover]
  exact false_ne_true

/-- **The loops return the next node that is asked for.** -/
theorem next_loop_spec {loop : Loop} (hat : At s lay r h iter π) (hfuel : cost lay loop π < fuel) :
    Answer s lay r h (todo lay loop π) (next_loop fuel s.heap loop iter) := by
  have hh := ht.links.hang
  induction fuel generalizing loop iter π with
  | zero => exact absurd hfuel (not_lt_zero _)
  | succ fuel ih => ?_
  have hlen := hat.depth ht
  -- Down to a child.
  have hdown : ∀ {b iter'}, At s lay r h iter' (b :: π) → loop = (if b then .right else .left) →
      Answer s lay r h (todo lay loop π) (if overlap s.heap iter' then some (iter'.cur, iter')
        else next_loop fuel s.heap .left iter') := by
    rintro b iter' hat' rfl
    rw [todo_child hat'.cur hlen]
    refine .visit hat' fun _ => ih hat' ?_
    unfold cost at hfuel ⊢
    rw [todo_child hat'.cur hlen, length_cons] at hfuel
    cases b <;> simp at hfuel ⊢ <;> omega
  -- On to the next loop, when nothing below is asked for.
  have hon : ∀ {b loop'}, Pruned s lay r h (b :: π) →
      todo lay loop π = preorder lay (LEVELS - (π.length + 1)) (b :: π) ++ todo lay loop' π →
      loop = .left ∧ loop' = .right ∨ loop = .right ∧ loop' = .up →
      Answer s lay r h (todo lay loop π) (next_loop fuel s.heap loop' iter) := by
    intro b loop' hpruned htodo horder
    have hlen := congrArg length htodo
    rw [length_append] at hlen
    refine (ih hat ?_).congr ?_
    · unfold cost at hfuel ⊢
      rcases horder with ⟨rfl, rfl⟩ | ⟨rfl, rfl⟩ <;> simp only at hfuel ⊢ <;> omega
    rw [htodo, filter_append, hpruned.filter, nil_append]
  cases loop with
  | left =>
    rw [next_loop]
    rcases prio_tree_left_spec ht hat with ⟨iter', hleft, hat', _⟩ | ⟨hleft, hpruned⟩
    · rw [hleft]
      exact hdown hat' rfl
    rw [hleft]
    exact hon hpruned rfl (.inl ⟨rfl, rfl⟩)
  | right =>
    rw [next_loop]
    rcases prio_tree_right_spec ht hat with ⟨iter', hright, hat', _⟩ | ⟨hright, hpruned⟩
    · rw [hright]
      exact hdown hat' rfl
    rw [hright]
    exact hon hpruned rfl (.inr ⟨rfl, rfl⟩)
  | up => ?_
  rw [next_loop]
  cases π with
  | nil =>
    have hroot := (hh.root_iff hat.cur).mpr rfl
    rw [if_neg fun h => h.1 hroot, if_pos hroot]
    exact .inl ⟨iter, rfl, rfl⟩
  | cons b π => ?_
  have hroot : ¬prio_tree_root s.heap iter.cur = true := fun h => by
    cases (hh.root_iff hat.cur).mp h
  obtain ⟨q, hq, hparent⟩ := hh.exists_parent hat.cur
  have hcost : ∀ loop', todo lay loop' π = todo lay .up (b :: π) →
      cost lay loop' π < fuel ∨ loop' = .left := by
    intro loop' htodo
    unfold cost at hfuel ⊢
    rw [htodo]
    rw [length_cons] at hfuel
    cases loop' with
    | left => exact .inr rfl
    | right => left; simp only at hfuel ⊢; omega
    | up => left; omega
  cases b with
  | true =>
    rw [if_pos ⟨hroot, by rw [hparent, hh.right_eq hq hat.cur]⟩]
    exact @ih _ π .up (hat.up ht) ((hcost .up rfl).resolve_right (by decide))
  | false => ?_
  have hne : s.heap.right (s.heap.parent iter.cur) ≠ iter.cur := by
    rw [hparent]
    intro heq
    cases hh.child_unique (c := true) hat.cur hq (hh.child_ne hq hat.cur).symm heq
  rw [if_neg fun h => hne h.2, if_neg hroot]
  exact @ih _ π .right (hat.up ht) ((hcost .right rfl).resolve_right (by decide))

/-! ## `prio_tree_first` -/

/-- Where an interval begins too late, so do those that come after it. -/
theorem rest_pruned {cur : Nat} (hcur : lay π = some cur)
    (hlate : h < s.heap.start cur) : (rest lay LEVELS π).filter (hits s.heap lay r h) = [] := by
  refine filter_eq_nil_iff.mpr fun σ hσ => ?_
  obtain ⟨ρ, hρ, hσρ, _⟩ := of_mem_rest hσ
  rw [hits_eq_false fun p hp hover => ?_]
  · exact false_ne_true
  have hle := start_le_of_right (ht.wf.fits hcur) (ht.wf.fits hp) (ht.wf.follows hcur)
    (ht.wf.follows hp) hρ hσρ
  have hstart := hover.1
  omega

theorem first_loop_spec (hat : At s lay r h iter π) (hr : r ≤ s.heap.last iter.cur)
    (hfuel : LEVELS ≤ fuel + π.length) :
    Answer s lay r h (π :: todo lay .left π) (first_loop fuel s.heap iter) := by
  induction fuel generalizing iter π with
  | zero =>
    have hlen := hat.depth ht
    omega
  | succ fuel ih => ?_
  have hlen := hat.depth ht
  refine .visit hat fun hover => ?_
  have hlate : h < s.heap.start iter.cur := by
    by_contra hle
    have hyes := hat.overlap_iff.mpr ⟨by omega, hr⟩
    rw [hover] at hyes
    cases hyes
  rcases prio_tree_left_spec ht hat with ⟨iter', hleft, hat', hr'⟩ | ⟨hleft, hpruned⟩
  · rw [hleft]
    refine (ih hat' hr' (by rw [length_cons]; omega)).congr ?_
    rw [← todo_child hat'.cur hlen]
    rfl
  have hright : (todo lay .left π).filter (hits s.heap lay r h) =
      (todo lay .right π).filter (hits s.heap lay r h) := by
    show (_ ++ todo lay .right π).filter _ = _
    rw [filter_append, hpruned.filter, nil_append]
  rw [hleft]
  rcases prio_tree_right_spec ht hat with ⟨iter', hgo, hat', hr'⟩ | ⟨hstay, hpruned'⟩
  · simp only [hgo]
    refine (ih hat' hr' (by rw [length_cons]; omega)).congr (hright.trans ?_)
    rw [← todo_child hat'.cur hlen]
    rfl
  simp only [hstay]
  refine .inl ⟨iter, rfl, hright.trans ?_⟩
  show (_ ++ rest lay LEVELS π).filter _ = _
  rw [filter_append, hpruned'.filter, nil_append, rest_pruned ht hat.cur hlate]

end moves

section query
variable {s : State} {lay : Layout} {r h : Nat}

/-- The positions in the order of the walk. -/
def positions (lay : Layout) : List Pos := preorder lay LEVELS []

variable {iter : Iter}

theorem prio_tree_first_spec (ht : Tree s.root.index_bits s lay) (hr : iter.r_index = r)
    (hh : iter.h_index = h) :
    Answer s lay r h (positions lay) (prio_tree_first s iter) := by
  have hpos := ht.bits_pos
  unfold prio_tree_first positions
  cases htop : lay [] with
  | none =>
    rw [if_pos (ht.links.empty_iff.mpr htop), preorder_none htop]
    exact .inl ⟨_, rfl, rfl⟩
  | some top => ?_
  have hempty : ¬prio_tree_empty s = true := by
    rw [ht.links.empty_iff, htop]
    exact some_ne_none top
  rw [if_neg hempty, ht.links.root_eq htop]
  show Answer s lay r h _ (if iter.r_index > s.heap.last top then _ else _)
  rw [hr]
  by_cases hlast : r > s.heap.last top
  · rw [if_pos hlast]
    refine .inl ⟨_, rfl, (pruned_of_last ht fun p hp => ?_).filter _⟩
    rw [htop, some.injEq] at hp
    rw [← hp]
    exact hlast
  rw [if_neg hlast]
  have hat : At s lay r h { INIT_PRIO_TREE_ITER iter with
      mask := 2 ^ (s.root.index_bits - 1), cur := top } [] := by
    refine ⟨htop, ?_, rfl, ?_, hr, hh⟩
    · show 2 ^ (s.root.index_bits - 1) = iterMask s.root.index_bits 0
      unfold iterMask levelMask
      rw [if_neg (by omega), if_pos (by omega), Nat.sub_zero]
    rw [length_nil, if_pos (by omega)]
    rfl
  refine (first_loop_spec ht hat (by show r ≤ s.heap.last top; omega) (le_refl _)).congr ?_
  rw [show LEVELS = 65 + 1 from rfl, preorder_some htop]
  simp only [todo, rest, append_nil]
  rfl

/-! ## Whole queries -/

/-- A call of `prio_tree_next` that comes back: it returns `p`, and leaves `iter'`. -/
def Returns (s : State) (iter : Iter) (p : Nat) (iter' : Iter) : Prop :=
  ∃ n, ∀ fuel, n ≤ fuel → prio_tree_next fuel s iter = some (p, iter')

/-- The nodes that `prio_tree_next` returns, until it returns NULL. -/
inductive Yields (s : State) : Iter → List Nat → Prop where
  | done {iter iter' : Iter} : Returns s iter 0 iter' → Yields s iter []
  | more {iter iter' : Iter} {p : Nat} {l : List Nat} :
      p ≠ 0 → Returns s iter p iter' → Yields s iter' l → Yields s iter (p :: l)

theorem next_loop_mono {heap : Heap} {fuel fuel' : Nat} {loop : Loop} {x : Nat × Iter}
    (hres : next_loop fuel heap loop iter = some x) (hle : fuel ≤ fuel') :
    next_loop fuel' heap loop iter = some x := by
  induction fuel generalizing fuel' loop iter with
  | zero => cases hres
  | succ fuel ih => ?_
  obtain ⟨k, rfl⟩ : ∃ k, fuel' = k + 1 := ⟨fuel' - 1, by omega⟩
  have hk : fuel ≤ k := by omega
  cases loop with
  | left | right =>
    rw [next_loop] at hres ⊢
    split at hres
    · cases hres
    · rename_i iter' _
      by_cases hover : overlap heap iter' = true
      · rw [if_pos hover] at hres ⊢
        exact hres
      rw [if_neg hover] at hres ⊢
      exact ih hres hk
    · exact ih hres hk
  | up => ?_
  rw [next_loop] at hres ⊢
  by_cases hright : ¬prio_tree_root heap iter.cur = true ∧
      heap.right (heap.parent iter.cur) = iter.cur
  · rw [if_pos hright] at hres ⊢
    exact ih hres hk
  rw [if_neg hright] at hres ⊢
  by_cases hroot : prio_tree_root heap iter.cur = true
  · rw [if_pos hroot] at hres ⊢
    exact hres
  rw [if_neg hroot] at hres ⊢
  exact ih hres hk

theorem returns_of_next {iter' : Iter} {p : Nat}
    (hres : prio_tree_next n s iter = some (p, iter')) : Returns s iter p iter' := by
  refine ⟨n, fun fuel hfuel => ?_⟩
  unfold prio_tree_next at hres ⊢
  by_cases hcur : iter.cur = 0
  · rw [if_pos hcur] at hres ⊢
    exact hres
  rw [if_neg hcur] at hres ⊢
  exact next_loop_mono hres hfuel

/-- From the first answer to a whole query. -/
theorem yields_of_answer {iter : Iter} {ahead : List Pos} {n : Nat}
    (ht : Tree s.root.index_bits s lay)
    (hans : Answer s lay r h ahead (prio_tree_next n s iter)) :
    Yields s iter ((ahead.filter (hits s.heap lay r h)).filterMap lay) := by
  have hhang := ht.links.hang
  generalize hl : ahead.filter (hits s.heap lay r h) = l
  induction l generalizing iter ahead n with
  | nil =>
    rcases hans with ⟨iter', hres, _⟩ | ⟨iter', σ, p, _, _, _, heq⟩
    · exact .done (returns_of_next hres)
    rw [hl] at heq
    cases heq
  | cons τ l ih => ?_
  rcases hans with ⟨iter', hres, hnil⟩ | ⟨iter', σ, p, hres, hσ, hat, heq⟩
  · rw [hl] at hnil
    cases hnil
  rw [hl] at heq
  obtain ⟨rfl, hrest⟩ := cons.inj heq
  rw [filterMap_cons_some hσ]
  refine .more (hhang.nonzero hσ) (returns_of_next hres)
    (@ih iter' (todo lay .left τ) (cost lay .left τ + 1) ?_ hrest.symm)
  unfold prio_tree_next
  rw [if_neg (hhang.nonzero hat.cur)]
  exact next_loop_spec ht hat (lt_succ_self _)

/-- **A query returns the nodes that overlap**, each of them once. -/
theorem query_spec (ht : Tree s.root.index_bits s lay) (r h : Nat) :
    ∃ l, Yields s (prio_tree_iter_init r h) l ∧ l.Nodup ∧
      ∀ p, p ∈ l ↔ Member lay p ∧ Overlaps s.heap r h p := by
  have hhang := ht.links.hang
  refine ⟨((positions lay).filter (hits s.heap lay r h)).filterMap lay, ?_, ?_, ?_⟩
  · refine @yields_of_answer _ _ _ _ _ _ 0 ht ?_
    exact prio_tree_first_spec ht rfl rfl
  · refine List.Nodup.filterMap ?_ ((nodup_preorder _ _).filter _)
    intro σ τ p hσ hτ
    exact hhang.inj hσ hτ
  intro p
  rw [mem_filterMap]
  constructor
  · rintro ⟨σ, hσ, hp⟩
    rw [mem_filter, hits_some hp, decide_eq_true_eq] at hσ
    exact ⟨⟨σ, hp⟩, hσ.2⟩
  rintro ⟨⟨σ, hp⟩, hover⟩
  refine ⟨σ, mem_filter.mpr ⟨?_, ?_⟩, hp⟩
  · have hdepth := ht.wf.depth ht.bits_le hhang.closed hp
    have hbits := ht.bits_le
    refine mem_preorder hhang.closed nil_suffix (by rw [hp]; exact some_ne_none p) ?_
    unfold LEVELS
    omega
  rw [hits_some hp, decide_eq_true_eq]
  exact hover

end query

end Nubernel.PrioTree
