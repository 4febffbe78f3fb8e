import Nubernel.PrioTree.Keys

/-! # Priority search trees: inserting

`prio_tree_insert` in a tree that is large enough for the node: the node, or
another that it has taken the place of, goes down to a free place.
-/

open Function List Nat Option Positions

namespace Nubernel.PrioTree

/-- A tree in order, for so many bits of `start`. -/
structure Tree (bits : Nat) (s : State) (lay : Layout) : Prop where
  links : Links s lay
  wf : WF s.heap bits lay
  bits_pos : 1 ≤ bits
  bits_le : bits ≤ 32

/-- The intervals, and the number of bits, are as before. -/
structure Keeps (s s' : State) : Prop where
  start : s'.heap.start = s.heap.start
  last : s'.heap.last = s.heap.last
  bits : s'.root.index_bits = s.root.index_bits

theorem Keeps.refl (s : State) : Keeps s s := ⟨rfl, rfl, rfl⟩

theorem Keeps.trans {s s' s'' : State} (h : Keeps s s') (h' : Keeps s' s'') : Keeps s s'' :=
  ⟨h'.start.trans h.start, h'.last.trans h.last, h'.bits.trans h.bits⟩

section keeps
variable {s s' : State} (hk : Keeps s s') {p q : Nat}

include hk

theorem Keeps.prior_iff : Prior s'.heap p q ↔ Prior s.heap p q := by
  unfold Prior
  rw [hk.start, hk.last]

theorem Keeps.fits_iff {bits : Nat} : Fits s'.heap bits p ↔ Fits s.heap bits p := by
  unfold Fits
  rw [hk.start, hk.last]

theorem Keeps.key_eq {bits : Nat} : key s'.heap bits p = key s.heap bits p :=
  key_congr hk.start hk.last

end keeps

/-! ## Places -/

section places
variable {heap : Heap} {bits : Nat} {lay : Layout} {π : Pos} {old node cur : Nat} {b : Bool}

variable {p : Nat}

/-- What is in the layout after a node has taken the place of another. -/
theorem rename_cases (hinj : ∀ {π σ p}, lay π = some p → lay σ = some p → π = σ)
    (hold : lay π = some old) {σ : Pos} (h : lay.rename old node σ = some p) :
    σ = π ∧ p = node ∨ σ ≠ π ∧ lay σ = some p ∧ p ≠ old := by
  obtain ⟨m, hm, rfl⟩ := map_eq_some_iff.mp h
  by_cases hmo : m = old
  · subst hmo
    exact .inl ⟨hinj hm hold, rename_self m node⟩
  rw [rename_of_ne hmo]
  refine .inr ⟨?_, hm, hmo⟩
  rintro rfl
  rw [hold, Option.some.injEq] at hm
  exact hmo hm.symm

theorem rename_at (hold : lay π = some old) : lay.rename old node π = some node := by
  unfold Layout.rename
  rw [hold]
  exact congrArg some (rename_self old node)

theorem member_rename (hold : lay π = some old) (hnew : ¬Member lay node) :
    Member (lay.rename old node) p ∨ p = old ↔ Member lay p ∨ p = node := by
  constructor
  · rintro (⟨σ, hσ⟩ | rfl)
    · obtain ⟨m, hm, rfl⟩ := map_eq_some_iff.mp hσ
      by_cases hmo : m = old
      · rw [hmo, rename_self]
        exact .inr rfl
      rw [rename_of_ne hmo]
      exact .inl ⟨σ, hm⟩
    exact .inl ⟨π, hold⟩
  rintro (⟨σ, hσ⟩ | rfl)
  · by_cases hpo : p = old
    · exact .inr hpo
    left
    refine ⟨σ, ?_⟩
    unfold Layout.rename
    rw [hσ]
    exact congrArg some (rename_of_ne hpo)
  exact .inl ⟨π, rename_at hold⟩

theorem not_member_rename (hno : old ≠ node) : ¬Member (lay.rename old node) old := by
  rintro ⟨σ, hσ⟩
  obtain ⟨m, _, heq⟩ := map_eq_some_iff.mp hσ
  unfold PrioTree.rename at heq
  split at heq
  · exact hno heq.symm
  rename_i hne
  exact hne heq

/-- **A node takes the place of another** where it belongs. -/
theorem WF.replace (hwf : WF heap bits lay)
    (hinj : ∀ {π σ p}, lay π = some p → lay σ = some p → π = σ) (hold : lay π = some old)
    (hfollows : Follows (key heap bits node) π) (hfits : Fits heap bits node)
    (habove : ∀ b ρ q, π = b :: ρ → lay ρ = some q → Prior heap q node)
    (hbelow : ∀ b q, lay (b :: π) = some q → Prior heap node q) :
    WF heap bits (lay.rename old node) := by
  refine ⟨?_, ?_, ?_⟩
  · intro b σ p q hp hq
    rcases rename_cases hinj hold hp with ⟨rfl, rfl⟩ | ⟨_, hp', _⟩
    · rcases rename_cases hinj hold hq with ⟨heq, _⟩ | ⟨_, hq', _⟩
      · exact absurd heq (cons_ne_self _ _)
      · exact hbelow b q hq'
    rcases rename_cases hinj hold hq with ⟨heq, rfl⟩ | ⟨_, hq', _⟩
    · exact habove b σ p heq.symm hp'
    · exact hwf.order b σ p q hp' hq'
  · intro σ p hp
    rcases rename_cases hinj hold hp with ⟨rfl, rfl⟩ | ⟨_, hp', _⟩
    · exact hfollows
    · exact hwf.follows hp'
  intro σ p hp
  rcases rename_cases hinj hold hp with ⟨_, rfl⟩ | ⟨_, hp', _⟩
  · exact hfits
  · exact hwf.fits hp'

/-- **A leaf is added** where it belongs. -/
theorem WF.attach (hwf : WF heap bits lay) (hclosed : Closed lay) (hcur : lay π = some cur)
    (hnone : lay (b :: π) = none) (hfollows : Follows (key heap bits node) (b :: π))
    (hfits : Fits heap bits node) (hprior : Prior heap cur node) :
    WF heap bits (update lay (b :: π) (some node)) := by
  have hlay : ∀ {σ p}, update lay (b :: π) (some node) σ = some p →
      σ = b :: π ∧ p = node ∨ lay σ = some p := by
    intro σ p h
    rcases update_cases h with ⟨hσ, h⟩ | ⟨_, h⟩
    · exact .inl ⟨hσ, (Option.some.inj h).symm⟩
    · exact .inr h
  refine ⟨?_, ?_, ?_⟩
  · intro c σ p q hp hq
    rcases hlay hq with ⟨heq, rfl⟩ | hq'
    · obtain ⟨rfl, rfl⟩ := cons.inj heq
      rcases hlay hp with ⟨heq', _⟩ | hp'
      · exact absurd heq' ne_cons_self
      rw [hcur, Option.some.injEq] at hp'
      rw [← hp']
      exact hprior
    rcases hlay hp with ⟨rfl, _⟩ | hp'
    · exact absurd hnone (hclosed c _ (by rw [hq']; exact some_ne_none q))
    · exact hwf.order c σ p q hp' hq'
  · intro σ p hp
    rcases hlay hp with ⟨rfl, rfl⟩ | hp'
    · exact hfollows
    · exact hwf.follows hp'
  intro σ p hp
  rcases hlay hp with ⟨_, rfl⟩ | hp'
  · exact hfits
  · exact hwf.fits hp'

theorem WF.cut (hwf : WF heap bits lay) : WF heap bits (update lay π none) := by
  have hlay : ∀ {σ p}, update lay π none σ = some p → lay σ = some p := by
    intro σ p h
    rcases update_cases h with ⟨_, h⟩ | ⟨_, h⟩
    · cases h
    · exact h
  exact ⟨fun c σ p q hp hq => hwf.order c σ p q (hlay hp) (hlay hq), fun hp => hwf.follows (hlay hp),
    fun hp => hwf.fits (hlay hp)⟩

theorem member_attach (hnone : lay π = none) :
    Member (update lay π (some node)) p ↔ Member lay p ∨ p = node := by
  constructor
  · rintro ⟨σ, hσ⟩
    rcases update_cases hσ with ⟨_, h⟩ | ⟨_, h⟩
    · exact .inr (Option.some.inj h).symm
    · exact .inl ⟨σ, h⟩
  rintro (⟨σ, hσ⟩ | rfl)
  · refine ⟨σ, ?_⟩
    rw [update_of_ne]
    · exact hσ
    rintro rfl
    rw [hnone] at hσ
    cases hσ
  exact ⟨π, update_self ..⟩

end places

/-! ## The loop -/

/-- The mask at a level. -/
def levelMask (bits n : Nat) : Nat :=
  if n < bits then 2 ^ (bits - 1 - n) else 2 ^ (31 - (n - bits) % 32)

theorem levelMask_pos (bits n : Nat) : 0 < levelMask bits n := by
  unfold levelMask
  split <;> exact Nat.two_pow_pos _

theorem two_pow_shiftRight (k : Nat) : 2 ^ k >>> 1 = if k = 0 then 0 else 2 ^ (k - 1) := by
  cases k with
  | zero => rfl
  | succ k =>
    rw [if_neg (Nat.succ_ne_zero k), Nat.shiftRight_eq_div_pow, Nat.pow_one, Nat.pow_succ,
      Nat.mul_div_cancel _ (by decide), Nat.add_sub_cancel]

variable {bits n : Nat}

theorem levelMask_succ :
    levelMask bits n >>> 1 = if n + 1 = bits ∨ bits ≤ n ∧ (n - bits) % 32 = 31 then 0
      else levelMask bits (n + 1) := by
  unfold levelMask
  by_cases hn : n < bits
  · rw [if_pos hn, two_pow_shiftRight]
    by_cases hlast : n + 1 = bits
    · rw [if_pos (by omega), if_pos (.inl hlast)]
    rw [if_neg (by omega), if_neg (by omega), if_pos (by omega),
      show bits - 1 - n - 1 = bits - 1 - (n + 1) by omega]
  rw [if_neg hn, two_pow_shiftRight]
  by_cases hlast : (n - bits) % 32 = 31
  · rw [if_pos (by omega), if_pos (.inr ⟨by omega, hlast⟩)]
  rw [if_neg (by omega), if_neg (by omega), if_neg (by omega),
    show 31 - (n - bits) % 32 - 1 = 31 - (n + 1 - bits) % 32 by omega]

theorem down_eq {v : Insert} (hmask : v.mask = levelMask bits n)
    (hflag : v.size_flag = decide (bits ≤ n)) (child : Nat) :
    v.down child = ⟨child, v.node, v.radix_index, v.heap_index, levelMask bits (n + 1),
      decide (bits ≤ n + 1)⟩ := by
  unfold Insert.down
  simp only [hmask, levelMask_succ]
  by_cases hwrap : n + 1 = bits ∨ bits ≤ n ∧ (n - bits) % 32 = 31
  · have hnext : levelMask bits (n + 1) = 2 ^ (BITS_PER_LONG - 1) := by
      unfold levelMask
      rw [if_neg (by omega), show 31 - (n + 1 - bits) % 32 = 31 by omega]
      rfl
    rw [if_pos hwrap, if_pos rfl, hnext, decide_eq_true (by omega)]
  have hpos := levelMask_pos bits (n + 1)
  have hsame : decide (bits ≤ n + 1) = decide (bits ≤ n) := by
    rw [decide_eq_decide]
    omega
  rw [if_neg hwrap, if_neg (ne_of_gt hpos), hsame, hflag]

theorem and_two_pow_iff (v k : Nat) : v &&& 2 ^ k ≠ 0 ↔ v.testBit k = true := by
  rw [and_two_pow]
  cases v.testBit k with
  | false => simp
  | true => simp

/-- The bit that the loop looks at. -/
theorem bit_iff {heap : Heap} {p : Nat} (hfits : Fits heap bits p) (hbits : bits ≤ 32) :
    (if decide (bits ≤ n) then sub32 (heap.last p) (heap.start p) else heap.start p) &&&
      levelMask bits n ≠ 0 ↔ key heap bits p n = true := by
  unfold levelMask key
  by_cases hn : n < bits
  · rw [if_pos hn, if_pos hn, if_neg (by rw [decide_eq_true_eq]; omega), and_two_pow_iff]
  have hpow : 2 ^ bits ≤ 2 ^ 32 := Nat.pow_le_pow_right (by decide) hbits
  obtain ⟨hle, hlt⟩ := hfits
  rw [if_neg hn, if_neg hn, if_pos (by rw [decide_eq_true_eq]; omega),
    and_two_pow_iff, sub32_eq (by omega) hle]

/-- The state of the loop: at `π`, with a node that belongs there or below. -/
structure Walk (s : State) (lay : Layout) (π : Pos) (v : Insert) : Prop where
  tree : Tree s.root.index_bits s lay
  cur : lay π = some v.cur
  radix : v.radix_index = s.heap.start v.node
  heap : v.heap_index = s.heap.last v.node
  mask : v.mask = levelMask s.root.index_bits π.length
  flag : v.size_flag = decide (s.root.index_bits ≤ π.length)
  follows : Follows (key s.heap s.root.index_bits v.node) π
  fits : Fits s.heap s.root.index_bits v.node

section walk
variable {s : State} {lay : Layout} {π : Pos} {v : Insert}

section
variable (hw : Walk s lay π v)
include hw

theorem Walk.down {b : Bool} {child : Nat} (hb : key s.heap s.root.index_bits v.node π.length = b)
    (hchild : lay (b :: π) = some child) :
    Walk s lay (b :: π) (v.down child) := by
  rw [down_eq hw.mask hw.flag]
  exact ⟨hw.tree, hchild, hw.radix, hw.heap, rfl, rfl, ⟨hb.symm, hw.follows⟩, hw.fits⟩

theorem Walk.down_node (child : Nat) : (v.down child).node = v.node := by
  rw [down_eq hw.mask hw.flag]

/-- Which way the loop goes. -/
theorem Walk.bit :
    (if v.size_flag then sub32 v.heap_index v.radix_index else v.radix_index) &&& v.mask ≠ 0 ↔
      key s.heap s.root.index_bits v.node π.length = true := by
  rw [hw.flag, hw.heap, hw.radix, hw.mask]
  exact bit_iff hw.fits hw.tree.bits_le

theorem Walk.same_iff :
    s.heap.start v.cur = v.radix_index ∧ s.heap.last v.cur = v.heap_index ↔
      Equal s.heap v.cur v.node := by
  rw [hw.radix, hw.heap]
  rfl

theorem Walk.swap_iff :
    s.heap.last v.cur < v.heap_index ∨
      s.heap.last v.cur = v.heap_index ∧ s.heap.start v.cur > v.radix_index ↔
      Prior s.heap v.node v.cur := by
  rw [hw.radix, hw.heap]
  unfold Prior
  omega

theorem Walk.mask_ne : v.mask ≠ 0 := by
  rw [hw.mask]
  exact ne_of_gt (levelMask_pos _ _)

/-- `node` has become a child of `cur`. -/
def addLeaf (s : State) (b : Bool) (cur node : Nat) : State :=
  ⟨set_parent (set_child (INIT_PRIO_TREE_NODE s.heap node) b cur node) node cur, s.root⟩

/-- One round of the loop, after the exchange. -/
theorem insert_loop_round {fuel res : Nat} {s' : State} {lay' : Layout} {v' : Insert} {b : Bool}
    (hne : ¬Equal s.heap v.cur v.node) (hex : exchange s v = some (s', v'))
    (hw' : Walk s' lay' π v') (hb : key s'.heap s'.root.index_bits v'.node π.length = b) :
    insert_loop (fuel + 1) s res v =
      match lay' (b :: π) with
      | none => some (res, addLeaf s' b v'.cur v'.node)
      | some child => insert_loop fuel s' res (v'.down child) := by
  have hh := hw'.tree.links.hang
  rw [insert_loop, if_neg hw.mask_ne, if_neg fun h => hne (hw.same_iff.mp h), hex]
  simp only
  cases b with
  | true =>
    rw [if_pos (hw'.bit.mpr hb)]
    cases hchild : lay' (true :: π) with
    | none =>
      rw [if_pos ((hh.right_empty hw'.cur).mpr hchild)]
      rfl
    | some child => ?_
    have hne : ¬prio_tree_right_empty s'.heap v'.cur = true := by
      rw [hh.right_empty hw'.cur, hchild]
      exact some_ne_none child
    rw [if_neg hne, hh.right_eq hw'.cur hchild]
  | false => ?_
  have hbit : ¬key s'.heap s'.root.index_bits v'.node π.length = true := by
    rw [hb]
    exact Bool.false_ne_true
  rw [if_neg fun h => hbit (hw'.bit.mp h)]
  cases hchild : lay' (false :: π) with
  | none =>
    rw [if_pos ((hh.left_empty hw'.cur).mpr hchild)]
    rfl
  | some child => ?_
  have hne : ¬prio_tree_left_empty s'.heap v'.cur = true := by
    rw [hh.left_empty hw'.cur, hchild]
    exact some_ne_none child
  rw [if_neg hne, hh.left_eq hw'.cur hchild]

theorem insert_loop_found {fuel res : Nat} {σ : Pos} {q : Nat} (hq : lay σ = some q)
    (heq : Equal s.heap q v.node) (hbelow : π <:+ σ)
    (hfuel : σ.length < fuel + π.length) : insert_loop fuel s res v = some (q, s) := by
  induction fuel generalizing π v with
  | zero =>
    have hle := hbelow.length_le
    omega
  | succ fuel ih => ?_
  have hh := hw.tree.links.hang
  by_cases hπσ : π = σ
  · subst hπσ
    rw [hw.cur, Option.some.injEq] at hq
    rw [insert_loop, if_neg hw.mask_ne, if_pos (hw.same_iff.mpr (by rw [hq]; exact heq)), hq]
  have hprior := hw.tree.wf.above hh.closed hw.cur hq hbelow hπσ
  have hprior' : Prior s.heap v.cur v.node := by
    unfold Prior at hprior ⊢
    rw [← heq.1, ← heq.2]
    exact hprior
  have hexchange : exchange s v = some (s, v) := by
    exact if_neg fun h => hprior'.asymm (hw.swap_iff.mp h)
  have htoward := (hw.tree.wf.follows hq).toward hbelow hπσ
  rw [heq.key_eq] at htoward
  obtain ⟨child, hchild⟩ := ne_none_iff_exists'.mp
    (hh.closed.of_suffix htoward (by rw [hq]; exact some_ne_none q))
  rw [insert_loop_round hw hprior'.not_equal hexchange hw rfl, hchild]
  refine ih (hw.down rfl hchild) ?_ htoward (by rw [length_cons]; omega)
  rw [hw.down_node]
  exact heq

/-- A node that is not in the tree, and to no node there equal, below `π`. -/
structure Fresh (s : State) (lay : Layout) (π : Pos) (node : Nat) : Prop where
  nonzero : node ≠ 0
  new : ¬Member lay node
  differs : ∀ p, Member lay p → ¬Equal s.heap p node
  above : ∀ b ρ q, π = b :: ρ → lay ρ = some q → Prior s.heap q node

/-- What the exchange leaves. -/
theorem Walk.exchange (hf : Fresh s lay π v.node) :
    ∃ s' lay' v', exchange s v = some (s', v') ∧ Walk s' lay' π v' ∧ Fresh s' lay' π v'.node ∧
      Prior s'.heap v'.cur v'.node ∧ Keeps s s' ∧
      ∀ p, Member lay' p ∨ p = v'.node ↔ Member lay p ∨ p = v.node := by
  have hh := hw.tree.links.hang
  have hne := hf.differs v.cur ⟨π, hw.cur⟩
  unfold PrioTree.exchange
  by_cases hswap : Prior s.heap v.node v.cur
  · rw [if_pos (hw.swap_iff.mpr hswap)]
    obtain ⟨s', hreplace, hr⟩ := hw.tree.links.replace hw.cur hf.new hf.nonzero
    have hk : Keeps s s' := ⟨hr.start, hr.last, hr.bits⟩
    have hcn : v.cur ≠ v.node := Member.ne ⟨π, hw.cur⟩ hf.new
    have hwf := hw.tree.wf.replace hh.inj hw.cur hw.follows hw.fits hf.above
      (fun b q hq => hswap.trans (hw.tree.wf.order b π v.cur q hw.cur hq))
    rw [hreplace]
    refine ⟨s', lay.rename v.cur v.node, _, rfl, ⟨⟨hr.links, ?_, ?_, ?_⟩, rename_at hw.cur, ?_, ?_, ?_,
      ?_, ?_, ?_⟩, ⟨hh.nonzero hw.cur, not_member_rename hcn, ?_, ?_⟩, ?_, hk, ?_⟩
    · rw [hr.bits]
      exact hwf.congr hr.start hr.last
    · rw [hr.bits]
      exact hw.tree.bits_pos
    · rw [hr.bits]
      exact hw.tree.bits_le
    · rw [hr.start]
    · rw [hr.last]
    · rw [hr.bits]
      exact hw.mask
    · rw [hr.bits]
      exact hw.flag
    · rw [hk.bits, hk.key_eq]
      exact hw.tree.wf.follows hw.cur
    · rw [hk.bits, hk.fits_iff]
      exact hw.tree.wf.fits hw.cur
    · rintro p ⟨σ, hσ⟩
      unfold Equal
      rw [hk.start, hk.last]
      rcases rename_cases hh.inj hw.cur hσ with ⟨_, rfl⟩ | ⟨hσπ, hσ', _⟩
      · exact hswap.not_equal
      intro heq
      exact hσπ (hw.tree.wf.unique hh.closed hσ' hw.cur heq)
    · intro b ρ q hπ hq
      rw [hk.prior_iff]
      subst hπ
      rcases rename_cases hh.inj hw.cur hq with ⟨heq, _⟩ | ⟨_, hq', _⟩
      · exact absurd heq ne_cons_self
      · exact hw.tree.wf.order b ρ q v.cur hq' hw.cur
    · rw [hk.prior_iff]
      exact hswap
    intro p
    exact member_rename hw.cur hf.new
  rw [if_neg fun h => hswap (hw.swap_iff.mp h)]
  exact ⟨s, lay, v, rfl, hw, hf, (prior_or hne).resolve_right hswap, .refl s, fun _ => Iff.rfl⟩

end

/-- **The node finds its place.** -/
theorem insert_loop_fresh {fuel res : Nat} (hw : Walk s lay π v) (hf : Fresh s lay π v.node)
    (hfuel : s.root.index_bits + 32 < fuel + π.length) :
    ∃ s' lay', insert_loop fuel s res v = some (res, s') ∧ Tree s'.root.index_bits s' lay' ∧ Keeps s s' ∧
      ∀ p, Member lay' p ↔ Member lay p ∨ p = v.node := by
  induction fuel generalizing s lay π v with
  | zero =>
    have hdepth := hw.tree.wf.depth hw.tree.bits_le hw.tree.links.hang.closed hw.cur
    omega
  | succ fuel ih => ?_
  obtain ⟨s', lay', v', hex, hw', hf', hprior, hk, hmember⟩ := hw.exchange hf
  have hh := hw'.tree.links.hang
  rw [insert_loop_round hw (hf.differs _ ⟨π, hw.cur⟩) hex hw' rfl]
  cases hchild : lay' (key s'.heap s'.root.index_bits v'.node π.length :: π) with
  | none =>
    have hattach := hh.attach_node hw'.cur hchild hf'.new hf'.nonzero
    have hwf := hw'.tree.wf.attach hh.closed hw'.cur hchild ⟨rfl, hw'.follows⟩ hw'.fits hprior
    have hint := intervals_set_child (INIT_PRIO_TREE_NODE s'.heap v'.node)
      (key s'.heap s'.root.index_bits v'.node π.length) v'.cur v'.node
    refine ⟨_, _, rfl, ⟨⟨hattach, ?_⟩, hwf.congr hint.1 hint.2, hw'.tree.bits_pos,
      hw'.tree.bits_le⟩, hk.trans ⟨hint.1, hint.2, rfl⟩, ?_⟩
    · rw [update_of_ne (cons_ne_nil _ _).symm]
      exact hw'.tree.links.root
    intro p
    rw [member_attach hchild, hmember]
  | some child => ?_
  have hdown := hw'.down rfl hchild
  have hnode := hw'.down_node child
  have hfresh : Fresh s' lay' (key s'.heap s'.root.index_bits v'.node π.length :: π)
      (v'.down child).node := by
    rw [hnode]
    refine ⟨hf'.nonzero, hf'.new, hf'.differs, ?_⟩
    intro b ρ q heq hq
    obtain ⟨_, rfl⟩ := cons.inj heq
    rw [hw'.cur, Option.some.injEq] at hq
    rw [← hq]
    exact hprior
  obtain ⟨s'', lay'', hloop, htree, hk', hmember'⟩ := ih hdown hfresh
    (by rw [hk.bits, length_cons]; omega)
  refine ⟨s'', lay'', hloop, htree, hk.trans hk', ?_⟩
  intro p
  rw [hmember', hnode, hmember]

end walk

end Nubernel.PrioTree
