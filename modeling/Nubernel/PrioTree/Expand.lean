import Nubernel.PrioTree.Remove

/-! # Priority search trees: expanding

`prio_tree_expand` makes a tree ready for a node that ends later than all in
it. The new node becomes the root. For each further bit that `start` needs one
node more is taken from the top of the tree; they are put below the root one
under the other, and what is left of the tree at their end.
-/

open Function List Nat Positions
open Option hiding or_assoc

namespace Nubernel.PrioTree

/-! ## Chains -/

/-- The nodes of a list one under the other, and a tree at their end. -/
def stack : List Nat → Layout → Layout
  | [], lay => lay
  | c :: cs, lay => under c (stack cs lay)

/-- The pointers of the nodes of such a list, which hangs below `up`; `tail` is at its
end. -/
def Chain (heap : Heap) : Option Nat → List Nat → Option Nat → Prop
  | _, [], _ => True
  | up, c :: cs, tail => heap.parent c = up.getD c ∧ heap.right c = c ∧
      heap.left c = (cs.head?.or tail).getD c ∧ Chain heap (some c) cs tail

section chain
variable {heap heap' : Heap} {up tail : Option Nat} {cs : List Nat} {lay : Layout}

theorem stack_nil_pos : stack cs lay [] = cs.head?.or (lay []) := by
  cases cs with
  | nil => rfl
  | cons c cs => exact under_nil

theorem member_stack {p : Nat} : Member (stack cs lay) p ↔ p ∈ cs ∨ Member lay p := by
  induction cs with
  | nil => exact ⟨.inr, fun h => h.resolve_left not_mem_nil⟩
  | cons c cs ih => rw [stack, member_under, ih, mem_cons, or_assoc]

/-- Only the pointers of the nodes in the list matter. -/
theorem Chain.congr (hc : Chain heap up cs tail)
    (hsame : ∀ c ∈ cs, heap'.left c = heap.left c ∧ heap'.right c = heap.right c ∧
      heap'.parent c = heap.parent c) : Chain heap' up cs tail := by
  induction cs generalizing up with
  | nil => trivial
  | cons c cs ih => ?_
  obtain ⟨hparent, hright, hleft, hrest⟩ := hc
  obtain ⟨hleft', hright', hparent'⟩ := hsame c mem_cons_self
  exact ⟨hparent'.trans hparent, hright'.trans hright, hleft'.trans hleft,
    ih hrest fun x hx => hsame x (mem_cons_of_mem c hx)⟩

theorem Chain.reparent {c v : Nat} (hc : Chain heap up (c :: cs) tail) (hnodup : (c :: cs).Nodup) :
    Chain (set_parent heap c v) (some v) (c :: cs) tail := by
  obtain ⟨_, hright, hleft, hrest⟩ := hc
  refine ⟨update_self .., hright, hleft, hrest.congr ?_⟩
  intro x hx
  exact ⟨rfl, rfl, update_of_ne (ne_of_mem_of_not_mem hx (nodup_cons.mp hnodup).1) _ _⟩

theorem Chain.extend {l t : Nat} (hc : Chain heap up cs none) (hnodup : cs.Nodup)
    (hl : cs.getLast? = some l) (ht : t ∉ cs) :
    Chain (set_parent (set_left heap l t) t l) up cs (some t) := by
  induction cs generalizing up with
  | nil => cases hl
  | cons c cs ih => ?_
  obtain ⟨hparent, hright, hleft, hrest⟩ := hc
  have htc : c ≠ t := fun h => ht (by rw [h]; exact mem_cons_self)
  have hpar : (set_parent (set_left heap l t) t l).parent c = up.getD c :=
    (update_of_ne htc _ _).trans hparent
  cases cs with
  | nil =>
    obtain rfl : c = l := some.inj hl
    exact ⟨hpar, hright, update_self .., trivial⟩
  | cons d cs => ?_
  have hl' : (d :: cs).getLast? = some l := hl
  have hcl : l ≠ c := ne_of_mem_of_not_mem (mem_of_getLast? hl') (nodup_cons.mp hnodup).1
  refine ⟨hpar, hright, ?_, ih hrest (nodup_cons.mp hnodup).2 hl' fun h =>
    ht (mem_cons_of_mem c h)⟩
  exact (update_of_ne hcl.symm _ _).trans hleft

theorem Chain.snoc {t : Nat} (hc : Chain heap up cs (some t))
    (hparent : heap.parent t = (cs.getLast?.or up).getD t) (hright : heap.right t = t)
    (hleft : heap.left t = t) : Chain heap up (cs ++ [t]) none := by
  induction cs generalizing up with
  | nil => exact ⟨hparent, hright, hleft, trivial⟩
  | cons c cs ih => ?_
  obtain ⟨hpar, hri, hle, hrest⟩ := hc
  refine ⟨hpar, hri, ?_, ih hrest ?_⟩
  · rw [hle]
    cases cs with
    | nil => rfl
    | cons d cs => rfl
  rw [hparent]
  cases cs with
  | nil => rfl
  | cons d cs => rw [List.getLast?_cons_cons, List.getLast?_cons]; rfl

/-- **The whole is a tree.** -/
theorem Chain.hang (hc : Chain heap up cs (lay [])) (hh : Hang heap (cs.getLast?.or up) lay)
    (hnodup : cs.Nodup) (hout : ∀ c ∈ cs, ¬Member lay c ∧ c ≠ 0) : Hang heap up (stack cs lay) := by
  induction cs generalizing up with
  | nil => exact hh
  | cons c cs ih => ?_
  obtain ⟨hparent, hright, hleft, hrest⟩ := hc
  obtain ⟨hnot, hnodup'⟩ := nodup_cons.mp hnodup
  have hbelow : Hang heap (some c) (stack cs lay) := by
    refine ih hrest ?_ hnodup' fun x hx => hout x (mem_cons_of_mem c hx)
    cases cs with
    | nil => exact hh
    | cons d cs =>
      rw [List.getLast?_cons_cons, List.getLast?_cons] at hh
      rw [List.getLast?_cons]
      exact hh
  obtain ⟨hcm, hc0⟩ := hout c mem_cons_self
  refine hbelow.under ?_ hc0 ?_ hright hparent
  · rw [member_stack]
    rintro (h | h)
    · exact hnot h
    · exact hcm h
  rw [hleft, stack_nil_pos]

end chain

/-! ## More bits -/

section bits
variable {heap : Heap} {bits p : Nat} {lay : Layout}

theorem Fits.mono {bits' : Nat} (h : Fits heap bits p) (hle : bits ≤ bits') : Fits heap bits' p := by
  have hpow : 2 ^ bits ≤ 2 ^ bits' := Nat.pow_le_pow_right (by decide) hle
  obtain ⟨hse, hlt⟩ := h
  exact ⟨hse, by omega⟩

/-- With one bit more there is one level more, and a node that fits goes left there. -/
theorem key_succ (h : Fits heap bits p) :
    key heap (bits + 1) p 0 = false ∧ ∀ n, key heap (bits + 1) p (n + 1) = key heap bits p n := by
  constructor
  · unfold key
    rw [if_pos (Nat.succ_pos bits), Nat.sub_zero, Nat.add_sub_cancel, Nat.testBit_lt_two_pow h.lt]
  intro n
  unfold key
  by_cases hn : n < bits
  · rw [if_pos (by omega), if_pos hn, show bits + 1 - 1 - (n + 1) = bits - 1 - n by omega]
  · rw [if_neg (by omega), if_neg hn, show n + 1 - (bits + 1) = n - bits by omega]

/-- **A node on top of a tree, for one bit more.** -/
theorem WF.under (hwf : WF heap bits lay) (hfits : Fits heap (bits + 1) p)
    (hprior : ∀ q, lay [] = some q → Prior heap p q) : WF heap (bits + 1) (under p lay) := by
  refine ⟨hwf.order.under hprior, ?_, ?_⟩
  · intro σ q hq
    rcases under_cases hq with ⟨rfl, _⟩ | ⟨τ, rfl, hτ⟩
    · trivial
    obtain ⟨hzero, hsucc⟩ := key_succ (hwf.fits hτ)
    exact (hwf.follows hτ).append_false hzero hsucc
  intro σ q hq
  rcases under_cases hq with ⟨_, rfl⟩ | ⟨τ, _, hτ⟩
  · exact hfits
  · exact (hwf.fits hτ).mono (le_succ bits)

/-- A list of nodes on top of a tree. -/
theorem WF.stack {cs : List Nat} (hwf : WF heap bits lay) (hfits : ∀ c ∈ cs, Fits heap bits c)
    (hchain : cs.Pairwise (Prior heap)) (hprior : ∀ c ∈ cs, ∀ q, Member lay q → Prior heap c q) :
    WF heap (bits + cs.length) (stack cs lay) := by
  induction cs with
  | nil => exact hwf
  | cons c cs ih => ?_
  obtain ⟨hc, hcs⟩ := pairwise_cons.mp hchain
  have hbelow := ih (fun x hx => hfits x (mem_cons_of_mem c hx)) hcs
    fun x hx => hprior x (mem_cons_of_mem c hx)
  refine hbelow.under ((hfits c mem_cons_self).mono (by omega)) ?_
  intro q hq
  have hmem : Member (PrioTree.stack cs lay) q := ⟨[], hq⟩
  rcases member_stack.mp hmem with h | h
  · exact hc q h
  · exact hprior c mem_cons_self q h

section
variable (hpos : 1 ≤ bits) (hle : bits ≤ 32)
include hpos hle

theorem prio_tree_maxindex_eq :
    prio_tree_maxindex bits = 2 ^ bits - 1 := by
  unfold prio_tree_maxindex index_bits_to_maxindex
  by_cases hlt : bits - 1 < BITS_PER_LONG - 1
  · rw [if_pos hlt, show bits - 1 + 1 = bits by omega]
  unfold BITS_PER_LONG at hlt
  obtain rfl : bits = 32 := by omega
  rfl

theorem gt_maxindex_iff {x : Nat} :
    x > prio_tree_maxindex bits ↔ 2 ^ bits ≤ x := by
  rw [prio_tree_maxindex_eq hpos hle]
  have hpow := Nat.two_pow_pos bits
  omega

/-- There are bits left as long as the largest index is too small. -/
theorem lt_of_gt_maxindex {x : Nat} (hx : x < 2 ^ 32) (hgt : x > prio_tree_maxindex bits) :
    2 ^ bits ≤ x ∧ bits < 32 := by
  have hge := (gt_maxindex_iff hpos hle).mp hgt
  refine ⟨hge, lt_of_le_of_ne hle ?_⟩
  rintro rfl
  omega

end

end bits

/-! ## The loop -/

/-- An empty tree only gets more bits. -/
theorem expand_loop_empty {fuel : Nat} {heap : Heap} {bits first last max : Nat} (hpos : 1 ≤ bits)
    (hle : bits ≤ 32) (hmax : max < 2 ^ 32) (hfuel : 32 < fuel + bits) :
    ∃ bits', 1 ≤ bits' ∧ bits' ≤ 32 ∧ max < 2 ^ bits' ∧
      expand_loop fuel ⟨heap, ⟨0, bits⟩⟩ first last max =
        some (⟨heap, ⟨0, bits'⟩⟩, first, last) := by
  induction fuel generalizing bits with
  | zero => omega
  | succ fuel ih => ?_
  rw [expand_loop]
  by_cases hgt : max > prio_tree_maxindex bits
  · have hlt := lt_of_gt_maxindex hpos hle hmax hgt
    rw [if_pos hgt]
    exact @ih (bits + 1) (by omega) (by omega) (by omega)
  rw [if_neg hgt]
  rw [gt_maxindex_iff hpos hle] at hgt
  exact ⟨bits, hpos, hle, by omega, rfl⟩

/-- The nodes in `chain` have been taken from the top of the tree. -/
structure Expanding (bits₀ : Nat) (s₀ : State) (lay₀ : Layout) (max : Nat) (s : State)
    (lay : Layout) (chain : List Nat) : Prop where
  tree : Tree bits₀ s lay
  start : s.heap.start = s₀.heap.start
  last : s.heap.last = s₀.heap.last
  links : Chain s.heap none chain none
  nodup : chain.Nodup
  out : ∀ c ∈ chain, ¬Member lay c ∧ c ≠ 0
  fits : ∀ c ∈ chain, Fits s.heap bits₀ c
  chained : chain.Pairwise (Prior s.heap)
  above : ∀ c ∈ chain, ∀ q, Member lay q → Prior s.heap c q
  members : ∀ p, p ∈ chain ∨ Member lay p ↔ Member lay₀ p
  enough : 2 ^ (bits₀ + chain.length) ≤ max

section loop
variable {bits₀ : Nat} {s₀ s : State} {lay₀ lay : Layout} {max : Nat} {chain : List Nat}

theorem forall_mem_concat {P : Nat → Prop} {l : List Nat} {a : Nat} :
    (∀ c ∈ l ++ [a], P c) ↔ (∀ c ∈ l, P c) ∧ P a := by
  simp [or_imp, forall_and]

/-- One more node is taken from the top. -/
theorem Expanding.take {top : Nat} {heap' : Heap} {s' : State} {lay' : Layout}
    (he : Expanding bits₀ s₀ lay₀ max s lay chain) (htop : lay [] = some top)
    (hr : Removed bits₀ s lay top s' lay') (hmax : 2 ^ (bits₀ + chain.length + 1) ≤ max)
    (hheap : heap' = match chain.getLast? with
      | none => INIT_PRIO_TREE_NODE s'.heap top
      | some l => set_parent (set_left (INIT_PRIO_TREE_NODE s'.heap top) l top) top l) :
    Expanding bits₀ s₀ lay₀ max { s' with heap := heap' } lay' (chain ++ [top]) := by
  have hmtop : Member lay top := ⟨[], htop⟩
  have htopc : top ∉ chain := fun h => (he.out top h).1 hmtop
  have hint : heap'.start = s'.heap.start ∧ heap'.last = s'.heap.last := by
    rw [hheap]
    cases chain.getLast? with
    | none => exact ⟨rfl, rfl⟩
    | some l => exact ⟨rfl, rfl⟩
  -- Nodes other than `top` and the last one keep their pointers.
  have hother : ∀ p, p ≠ top → (∀ l, chain.getLast? = some l → p ≠ l) →
      heap'.left p = s'.heap.left p ∧ heap'.right p = s'.heap.right p ∧
        heap'.parent p = s'.heap.parent p := by
    intro p hp hl
    rw [hheap]
    cases hlast : chain.getLast? with
    | none =>
      exact ⟨update_of_ne hp _ _, update_of_ne hp _ _, update_of_ne hp _ _⟩
    | some l =>
      exact ⟨(update_of_ne (hl l hlast) _ _).trans (update_of_ne hp _ _), update_of_ne hp _ _,
        (update_of_ne hp _ _).trans (update_of_ne hp _ _)⟩
  have hmember : ∀ p, Member lay' p → p ≠ top ∧ ∀ l, chain.getLast? = some l → p ≠ l := by
    intro p hp
    obtain ⟨hp, hne⟩ := (hr.members p).mp hp
    exact ⟨hne, fun l hl => hp.ne (he.out l (mem_of_getLast? hl)).1⟩
  -- The chain as it was, in the memory after the removal.
  have hchain : Chain (INIT_PRIO_TREE_NODE s'.heap top) none chain none := by
    refine he.links.congr ?_
    intro c hc
    have hct := ne_of_mem_of_not_mem hc htopc
    obtain ⟨hl, hri, hp⟩ := hr.frame c (he.out c hc).1
    exact ⟨(update_of_ne hct _ _).trans hl, (update_of_ne hct _ _).trans hri,
      (update_of_ne hct _ _).trans hp⟩
  have hprior : ∀ q, Member lay' q → Prior s.heap top q := by
    intro q hq
    obtain ⟨⟨σ, hσ⟩, hne⟩ := (hr.members q).mp hq
    refine he.tree.wf.above he.tree.links.hang.closed htop hσ nil_suffix ?_
    rintro rfl
    rw [htop, some.injEq] at hσ
    exact hne hσ.symm
  have hk : Keeps s ⟨heap', s.root⟩ := ⟨hint.1.trans hr.start, hint.2.trans hr.last, rfl⟩
  refine ⟨⟨⟨hr.tree.links.hang.congr fun p hp => hother p (hmember p hp).1 (hmember p hp).2,
    hr.tree.links.root⟩, hr.tree.wf.congr hint.1 hint.2, hr.tree.bits_pos, hr.tree.bits_le⟩,
    hint.1.trans (hr.start.trans he.start), hint.2.trans (hr.last.trans he.last), ?_, ?_, ?_, ?_,
    ?_, ?_, ?_, ?_⟩
  · rw [hheap]
    cases hlast : chain.getLast? with
    | none =>
      rw [List.getLast?_eq_none_iff.mp hlast]
      exact ⟨update_self .., update_self .., update_self .., trivial⟩
    | some l => ?_
    have hlt : l ≠ top := ne_of_mem_of_not_mem (mem_of_getLast? hlast) htopc
    refine (hchain.extend he.nodup hlast htopc).snoc ?_ ?_ ?_
    · rw [hlast]
      exact update_self ..
    · exact update_self ..
    · exact (update_of_ne hlt.symm _ _).trans (update_self ..)
  · rw [← concat_eq_append]
    exact Nodup.concat htopc he.nodup
  · refine forall_mem_concat.mpr ⟨fun c h => ?_, ?_⟩
    · exact ⟨fun hm => (he.out c h).1 ((hr.members c).mp hm).1, (he.out c h).2⟩
    · exact ⟨fun hm => ((hr.members top).mp hm).2 rfl, he.tree.links.hang.nonzero htop⟩
  · refine forall_mem_concat.mpr ⟨fun c h => ?_, ?_⟩
    · exact hk.fits_iff.mpr (he.fits c h)
    · exact hk.fits_iff.mpr (he.tree.wf.fits htop)
  · refine pairwise_append.mpr ⟨he.chained.imp hk.prior_iff.mpr, pairwise_singleton _ _, ?_⟩
    intro c hc x hx
    rw [mem_singleton.mp hx]
    exact hk.prior_iff.mpr (he.above c hc top hmtop)
  · refine forall_mem_concat.mpr ⟨fun c h q hq => ?_, fun q hq => ?_⟩
    · exact hk.prior_iff.mpr (he.above c h q ((hr.members q).mp hq).1)
    · exact hk.prior_iff.mpr (hprior q hq)
  · intro p
    rw [← he.members p, mem_append, mem_singleton, hr.members p]
    by_cases hpt : p = top
    · simp [hpt, hmtop]
    · simp [hpt]
  rw [length_append, length_singleton]
  exact hmax

/-- The number of bits plays no role while nodes are taken. -/
theorem Expanding.set_bits (he : Expanding bits₀ s₀ lay₀ max s lay chain) (b : Nat) :
    Expanding bits₀ s₀ lay₀ max ⟨s.heap, ⟨s.root.prio_tree_node, b⟩⟩ lay chain :=
  ⟨⟨⟨he.tree.links.hang, he.tree.links.root⟩, he.tree.wf, he.tree.bits_pos, he.tree.bits_le⟩,
    he.start, he.last, he.links, he.nodup, he.out, he.fits, he.chained, he.above, he.members,
    he.enough⟩

/-- How the loop ends. -/
structure Expanded (bits₀ : Nat) (s₀ : State) (lay₀ : Layout) (max : Nat) (s : State)
    (lay : Layout) (chain : List Nat) (first last : Nat) : Prop where
  expanding : Expanding bits₀ s₀ lay₀ max s lay chain
  first : first = chain.head?.getD 0
  last : last = chain.getLast?.getD 0
  bits_le : s.root.index_bits ≤ 32
  fits : max < 2 ^ s.root.index_bits
  bits : lay [] ≠ none → s.root.index_bits = bits₀ + chain.length + 1

/-- **The loop takes nodes from the top until there are enough bits.** -/
theorem expand_loop_spec {fuel first last top : Nat} (he : Expanding bits₀ s₀ lay₀ max s lay chain)
    (hfirst : first = chain.head?.getD 0) (hlast : last = chain.getLast?.getD 0)
    (htop : lay [] = some top) (hbits : s.root.index_bits = bits₀ + chain.length + 1)
    (hle : s.root.index_bits ≤ 32) (hmax : max < 2 ^ 32)
    (hfuel : 66 < fuel + s.root.index_bits) :
    ∃ s' lay' chain' first' last', expand_loop fuel s first last max = some (s', first', last') ∧
      Expanded bits₀ s₀ lay₀ max s' lay' chain' first' last' := by
  induction fuel generalizing s lay chain first last top with
  | zero => omega
  | succ fuel ih => ?_
  have hpos : 1 ≤ s.root.index_bits := by omega
  have hroot := he.tree.links.root_eq htop
  rw [expand_loop]
  by_cases hgt : max > prio_tree_maxindex s.root.index_bits
  · obtain ⟨hge, hlt⟩ := lt_of_gt_maxindex hpos hle hmax hgt
    rw [if_pos hgt]
    have he₁ := he.set_bits (s.root.index_bits + 1)
    obtain ⟨s₂, lay₂, hremove, hr⟩ := prio_tree_remove_spec he₁.tree htop
    have hempty : ¬prio_tree_empty ⟨s.heap, ⟨s.root.prio_tree_node, s.root.index_bits + 1⟩⟩ =
        true := by
      rw [he₁.tree.links.empty_iff, htop]
      exact some_ne_none top
    simp only
    rw [if_neg hempty, hroot]
    rw [hroot] at hremove hr he₁
    rw [hremove]
    simp only
    -- The two cases of the source differ in whether there is a node before this one.
    have hround : ∃ first' heap', heap' = (match chain.getLast? with
        | none => INIT_PRIO_TREE_NODE s₂.heap top
        | some l => set_parent (set_left (INIT_PRIO_TREE_NODE s₂.heap top) l top) top l) ∧
        first' = (chain ++ [top]).head?.getD 0 ∧
        (if first = 0 then expand_loop fuel { s₂ with heap := INIT_PRIO_TREE_NODE s₂.heap top }
          top top max
        else expand_loop fuel { s₂ with heap := set_parent (set_left
          (INIT_PRIO_TREE_NODE s₂.heap top) last top) top last } first top max) =
        expand_loop fuel { s₂ with heap := heap' } first' top max := by
      cases chain with
      | nil =>
        rw [if_pos (show first = 0 from hfirst)]
        exact ⟨top, _, rfl, rfl, rfl⟩
      | cons c cs => ?_
      have hc : first = c := hfirst
      have hl : (c :: cs).getLast? = some last := by
        rw [hlast, List.getLast?_cons]
        rfl
      rw [if_neg (by rw [hc]; exact (he.out c mem_cons_self).2), hl]
      exact ⟨first, _, rfl, hc, rfl⟩
    obtain ⟨first', heap', hheap', hfirst', hround⟩ := hround
    have hmax' : 2 ^ (bits₀ + chain.length + 1) ≤ max := by
      rw [← hbits]
      exact hge
    have he₃ := he₁.take htop hr hmax' hheap'
    have hlen : (chain ++ [top]).length = chain.length + 1 := by
      rw [length_append, length_singleton]
    have hlast' : top = (chain ++ [top]).getLast?.getD 0 := by
      rw [List.getLast?_concat]
      rfl
    rw [hround]
    rcases hr.root with ⟨hbits₂, htop₂⟩ | ⟨hbits₂, hroot₂, hnone⟩
    · obtain ⟨top', htop'⟩ := ne_none_iff_exists'.mp htop₂
      have hbits' : s₂.root.index_bits = s.root.index_bits + 1 := hbits₂
      exact ih he₃ hfirst' hlast' htop' (by show s₂.root.index_bits = _; omega)
        (by show s₂.root.index_bits ≤ 32; omega) (by show 66 < fuel + s₂.root.index_bits; omega)
    -- The tree has become empty, and has only one bit again.
    obtain ⟨bits', hpos', hle', hfits', hloop⟩ := @expand_loop_empty fuel heap' 1 first' top _ (by decide) (by decide) hmax (by omega)
    have hs₂ : (⟨heap', s₂.root⟩ : State) = ⟨heap', ⟨0, 1⟩⟩ := by
      rw [← hbits₂, ← hroot₂]
    rw [show ({ s₂ with heap := heap' } : State) = ⟨heap', ⟨0, 1⟩⟩ from hs₂, hloop]
    refine ⟨_, lay₂, chain ++ [top], first', top, rfl, ?_, hfirst', hlast', hle', hfits', ?_⟩
    · have he₄ := he₃.set_bits bits'
      rw [show (⟨heap', s₂.root⟩ : State).root.prio_tree_node = 0 from hroot₂] at he₄
      exact he₄
    intro hsome
    obtain ⟨p, hp⟩ := ne_none_iff_exists'.mp hsome
    exact absurd ⟨[], hp⟩ (hnone p)
  rw [if_neg hgt]
  rw [gt_maxindex_iff hpos hle] at hgt
  exact ⟨s, lay, chain, first, last, rfl, he, hfirst, hlast, hle, by omega, fun _ => hbits⟩

end loop

/-! ## The new root -/

/-- The tree after a node has been put into it. -/
structure Inserted (s : State) (lay : Layout) (node : Nat) (s' : State) (lay' : Layout) : Prop where
  tree : Tree s'.root.index_bits s' lay'
  start : s'.heap.start = s.heap.start
  last : s'.heap.last = s.heap.last
  members : ∀ p, Member lay' p ↔ Member lay p ∨ p = node

section top
variable {s : State} {lay : Layout} {chain : List Nat} {node first last : Nat}

/-- The node above the chain. -/
theorem chain_top {heap heap' : Heap} (hc : Chain heap none chain none) (hnodup : chain.Nodup)
    (hnode : node ∉ chain) (hheap' : heap' = match chain.head? with
      | none => INIT_PRIO_TREE_NODE heap node
      | some c => set_parent (set_left (INIT_PRIO_TREE_NODE heap node) node c) c node) :
    Chain heap' none (node :: chain) none := by
  have hinit : Chain (INIT_PRIO_TREE_NODE heap node) none chain none := by
    refine hc.congr ?_
    intro c hmem
    have hne := ne_of_mem_of_not_mem hmem hnode
    exact ⟨update_of_ne hne _ _, update_of_ne hne _ _, update_of_ne hne _ _⟩
  cases chain with
  | nil =>
    rw [hheap']
    exact ⟨update_self .., update_self .., update_self .., trivial⟩
  | cons c cs => ?_
  have hnc : node ≠ c := fun h => hnode (by rw [h]; exact mem_cons_self)
  rw [hheap']
  refine ⟨?_, update_self .., update_self .., ?_⟩
  · exact (update_of_ne hnc _ _).trans (update_self ..)
  refine Chain.reparent (hinit.congr ?_) hnodup
  intro x hx
  exact ⟨update_of_ne (ne_of_mem_of_not_mem hx hnode) _ _, rfl, rfl⟩

section
variable (hl : Links s lay) (hc : Chain s.heap none chain none) (hnodup : chain.Nodup)
variable (hout : ∀ c ∈ chain, ¬Member lay c ∧ c ≠ 0) (hfirst : first = chain.head?.getD 0)
variable (hlast : last = chain.getLast?.getD 0) (hnode : node ≠ 0)
include hl hc hnodup hout hfirst hlast hnode

/-- **The node is the root of a tree** with the chain and the rest below it. -/
theorem put_on_top_links (hnew : node ∉ chain) (hnew' : ¬Member lay node) :
    Links (put_on_top s node first last) (stack (node :: chain) lay) := by
  obtain ⟨hh, hroot⟩ := hl
  -- The memory after the chain has been put below the node.
  obtain ⟨heap', hheap'⟩ : ∃ heap' : Heap, heap' = match chain.head? with
      | none => INIT_PRIO_TREE_NODE s.heap node
      | some c => set_parent (set_left (INIT_PRIO_TREE_NODE s.heap node) node c) c node := ⟨_, rfl⟩
  have hchain := chain_top hc hnodup hnew hheap'
  obtain ⟨l, hl⟩ : ∃ l, (node :: chain).getLast? = some l := by
    exact ⟨_, rfl⟩
  have hput : put_on_top s node first last = ⟨if s.root.prio_tree_node ≠ 0 then
      set_parent (set_left heap' l s.root.prio_tree_node) s.root.prio_tree_node l else heap',
      ⟨node, s.root.index_bits⟩⟩ := by
    unfold put_on_top
    simp only
    cases chain with
    | nil =>
      obtain rfl : node = l := some.inj hl
      rw [if_neg (not_not_intro (show first = 0 from hfirst)),
        if_neg (not_not_intro (show first = 0 from hfirst)), hheap']
      rfl
    | cons c cs => ?_
    have hc : first = c := hfirst
    have hne : first ≠ 0 := by
      rw [hc]
      exact (hout c mem_cons_self).2
    have hlast' : last = l := by
      rw [hlast]
      rw [List.getLast?_cons_cons] at hl
      rw [hl]
      rfl
    rw [if_pos hne, if_pos hne, hheap', hc, hlast']
    rfl
  -- Members of the tree keep their pointers.
  have hmember : ∀ p, Member lay p → heap'.left p = s.heap.left p ∧ heap'.right p = s.heap.right p ∧
      heap'.parent p = s.heap.parent p := by
    intro p hp
    have hpn := hp.ne hnew'
    rw [hheap']
    cases hhead : chain.head? with
    | none =>
      exact ⟨update_of_ne hpn _ _, update_of_ne hpn _ _, update_of_ne hpn _ _⟩
    | some c =>
      have hpc := hp.ne (hout c (mem_of_head? hhead)).1
      exact ⟨(update_of_ne hpn _ _).trans (update_of_ne hpn _ _), update_of_ne hpn _ _,
        (update_of_ne hpc _ _).trans (update_of_ne hpn _ _)⟩
  have hnodup' : (node :: chain).Nodup := nodup_cons.mpr ⟨hnew, hnodup⟩
  have hout' : ∀ c ∈ node :: chain, ¬Member lay c ∧ c ≠ 0 := by
    exact forall_mem_cons.mpr ⟨⟨hnew', hnode⟩, hout⟩
  rw [hput]
  refine ⟨?_, ?_⟩
  · cases htop : lay [] with
    | none =>
      rw [htop] at hroot
      rw [if_neg (not_not_intro (show s.root.prio_tree_node = 0 from hroot))]
      refine Chain.hang (by rw [htop]; exact hchain) ?_ hnodup' hout'
      refine hh.reparent ?_ fun p hp => absurd hp (hh.not_member htop)
      intro p hp
      rw [htop] at hp
      cases hp
    | some top => ?_
    rw [htop] at hroot
    have hroot : s.root.prio_tree_node = top := hroot
    have hmtop : Member lay top := ⟨[], htop⟩
    have htopn : top ∉ node :: chain := fun h => (hout' top h).1 hmtop
    rw [if_pos (by rw [hroot]; exact hh.nonzero htop), hroot]
    refine Chain.hang (by rw [htop]; exact hchain.extend hnodup' hl htopn) ?_ hnodup' hout'
    rw [hl]
    refine hh.reparent ?_ ?_
    · intro p hp
      rw [htop, some.injEq] at hp
      rw [← hp]
      exact update_self ..
    intro p hp
    have hpl := hp.ne (hout' l (mem_of_getLast? hl)).1
    obtain ⟨hleft, hright, hparent⟩ := hmember p hp
    refine ⟨(update_of_ne hpl _ _).trans hleft, hright, fun hpt => ?_⟩
    exact (update_of_ne (fun h => hpt (by rw [htop, h])) _ _).trans hparent
  rfl

/-- The chain and the rest are what the tree was before. -/
theorem put_on_top_inserted {s₀ : State} {lay₀ : Layout} (hnew : ¬Member lay₀ node)
    (hmembers : ∀ p, p ∈ chain ∨ Member lay p ↔ Member lay₀ p)
    (hwf : WF s.heap s.root.index_bits (stack (node :: chain) lay))
    (hpos : 1 ≤ s.root.index_bits) (hle : s.root.index_bits ≤ 32)
    (hstart : s.heap.start = s₀.heap.start) (hend : s.heap.last = s₀.heap.last) :
    Inserted s₀ lay₀ node (put_on_top s node first last) (stack (node :: chain) lay) := by
  have hlinks := put_on_top_links hl hc hnodup hout hfirst hlast hnode
    (fun h => hnew ((hmembers node).mp (.inl h))) (fun h => hnew ((hmembers node).mp (.inr h)))
  have hkeeps : Keeps s (put_on_top s node first last) := by
    unfold put_on_top
    refine ⟨?_, ?_, rfl⟩
    · split <;> split <;> rfl
    · split <;> split <;> rfl
  refine ⟨⟨hlinks, ?_, ?_, ?_⟩, hkeeps.start.trans hstart, hkeeps.last.trans hend, ?_⟩
  · rw [hkeeps.bits]
    exact hwf.congr hkeeps.start hkeeps.last
  · rw [hkeeps.bits]
    exact hpos
  · rw [hkeeps.bits]
    exact hle
  intro p
  rw [member_stack, mem_cons, or_assoc, hmembers p, or_comm]

end

end top

/-! ## `prio_tree_expand` and `prio_tree_insert` -/

section expand
variable {s : State} {lay : Layout} {node : Nat}

theorem prio_tree_expand_empty (ht : Tree s.root.index_bits s lay) (hempty : lay [] = none)
    (hnode : node ≠ 0) (hse : s.heap.start node ≤ s.heap.last node)
    (hmax : s.heap.last node < 2 ^ 32) :
    ∃ s' lay', prio_tree_expand s node (s.heap.last node) = some s' ∧
      Inserted s lay node s' lay' := by
  have hroot : s.root.prio_tree_node = 0 := by
    rw [ht.links.root, hempty]
    rfl
  obtain ⟨b, hb, hpos, hle⟩ : ∃ b, (if s.heap.last node > prio_tree_maxindex s.root.index_bits then
      s.root.index_bits + 1 else s.root.index_bits) = b ∧ 1 ≤ b ∧ b ≤ 32 := by
    have hpos := ht.bits_pos
    have hle := ht.bits_le
    by_cases hgt : s.heap.last node > prio_tree_maxindex s.root.index_bits
    · have hlt := lt_of_gt_maxindex hpos hle hmax hgt
      exact ⟨_, if_pos hgt, by omega, by omega⟩
    exact ⟨_, if_neg hgt, hpos, hle⟩
  obtain ⟨bits', hpos', hle', hfits', hloop⟩ := @expand_loop_empty LEVELS s.heap b 0 0 _ hpos hle hmax (by unfold LEVELS; omega)
  have hexpand : prio_tree_expand s node (s.heap.last node) =
      some (put_on_top ⟨s.heap, ⟨0, bits'⟩⟩ node 0 0) := by
    unfold prio_tree_expand
    simp only [hb, hroot]
    rw [hloop]
    rfl
  have hwf : WF s.heap (bits' - 1 + 1) (under node fun _ => none) := by
    refine (wf_empty s.heap (bits' - 1)).under ⟨hse, ?_⟩ ?_
    · rw [show bits' - 1 + 1 = bits' by omega]
      exact hfits'
    intro q hq
    cases hq
  rw [show bits' - 1 + 1 = bits' by omega] at hwf
  refine ⟨_, _, hexpand, @put_on_top_inserted _ _ [] _ _ _
    (@tree_empty s.heap _ bits' hpos' hle').links trivial nodup_nil ?_ rfl rfl hnode _ _ (ht.links.hang.not_member hempty) ?_ hwf hpos' hle' rfl rfl⟩
  · intro c hc
    cases hc
  intro p
  refine iff_of_false ?_ (ht.links.hang.not_member hempty)
  rintro (h | ⟨π, hπ⟩)
  · cases h
  · cases hπ

/-- The node ends later than the tree can hold. -/
theorem prio_tree_expand_more {top : Nat} (ht : Tree s.root.index_bits s lay)
    (htop : lay [] = some top) (hnode : node ≠ 0) (hnew : ¬Member lay node)
    (hse : s.heap.start node ≤ s.heap.last node) (hmax : s.heap.last node < 2 ^ 32)
    (hgt : s.heap.last node > prio_tree_maxindex s.root.index_bits) :
    ∃ s' lay', prio_tree_expand s node (s.heap.last node) = some s' ∧
      Inserted s lay node s' lay' := by
  obtain ⟨hge, hlt⟩ := lt_of_gt_maxindex ht.bits_pos ht.bits_le hmax hgt
  have he : Expanding s.root.index_bits s lay (s.heap.last node) s lay [] := by
    refine ⟨ht, rfl, rfl, trivial, nodup_nil, ?_, ?_, List.Pairwise.nil, ?_, ?_, hge⟩
    · intro c hc
      cases hc
    · intro c hc
      cases hc
    · intro c hc
      cases hc
    intro p
    exact ⟨fun h => h.resolve_left not_mem_nil, .inr⟩
  obtain ⟨s', lay', chain, first, last, hloop, hx⟩ := @expand_loop_spec _ _ _ _ _ _ _ LEVELS 0 0 _ (he.set_bits (s.root.index_bits + 1)) rfl rfl htop rfl
    (by show s.root.index_bits + 1 ≤ 32; omega) hmax
    (by show 66 < LEVELS + (s.root.index_bits + 1); unfold LEVELS; omega)
  have hexpand : prio_tree_expand s node (s.heap.last node) =
      some (put_on_top s' node first last) := by
    unfold prio_tree_expand
    simp only [if_pos hgt]
    rw [hloop]
    rfl
  have hx' := hx.expanding
  -- The number of bits is what the chain needs, or more.
  have hbits : s.root.index_bits + chain.length + 1 ≤ s'.root.index_bits := by
    have hlt' : 2 ^ (s.root.index_bits + chain.length) < 2 ^ s'.root.index_bits :=
      lt_of_le_of_lt hx'.enough hx.fits
    have := (Nat.pow_lt_pow_iff_right (by decide)).mp hlt'
    omega
  have hbase : WF s'.heap (s'.root.index_bits - (chain.length + 1)) lay' := by
    cases htop' : lay' [] with
    | some q =>
      rw [hx.bits (by rw [htop']; exact some_ne_none q),
        show s.root.index_bits + chain.length + 1 - (chain.length + 1) = s.root.index_bits by omega]
      exact hx'.tree.wf
    | none => ?_
    have hnone : lay' = fun _ => none := by
      funext π
      by_contra hsome
      exact hx'.tree.links.hang.closed.of_suffix nil_suffix hsome htop'
    rw [hnone]
    exact wf_empty _ _
  have hstack := hbase.stack (fun c hc => (hx'.fits c hc).mono (by omega)) hx'.chained hx'.above
  have hlater : ∀ q, Member lay q → Prior s'.heap node q := by
    rintro q ⟨π, hπ⟩
    have hq := (ht.wf.fits hπ).2
    left
    rw [hx'.last]
    omega
  have hwf : WF s'.heap s'.root.index_bits (stack (node :: chain) lay') := by
    have hnext := hstack.under (p := node) ?_ ?_
    · rw [show s'.root.index_bits - (chain.length + 1) + chain.length + 1 = s'.root.index_bits by
        omega] at hnext
      exact hnext
    · refine ⟨by rw [hx'.start, hx'.last]; exact hse, ?_⟩
      rw [hx'.last, show s'.root.index_bits - (chain.length + 1) + chain.length + 1 =
        s'.root.index_bits by omega]
      exact hx.fits
    intro q hq
    exact hlater q ((hx'.members q).mp (member_stack.mp ⟨[], hq⟩))
  exact ⟨_, _, hexpand, put_on_top_inserted hx'.tree.links hx'.links hx'.nodup hx'.out hx.first
    hx.last hnode hnew hx'.members hwf (by omega) hx.bits_le hx'.start hx'.last⟩

end expand

section insert
variable {s : State} {lay : Layout} {node : Nat}

theorem walk_root {top : Nat} (ht : Tree s.root.index_bits s lay) (htop : lay [] = some top)
    (hfits : Fits s.heap s.root.index_bits node) :
    Walk s lay [] ⟨s.root.prio_tree_node, node, s.heap.start node, s.heap.last node,
      2 ^ (s.root.index_bits - 1), false⟩ := by
  have hpos := ht.bits_pos
  refine ⟨ht, ?_, rfl, rfl, ?_, ?_, trivial, hfits⟩
  · rw [ht.links.root, htop]
    rfl
  · show 2 ^ (s.root.index_bits - 1) = levelMask s.root.index_bits 0
    unfold levelMask
    rw [if_pos (show 0 < s.root.index_bits from hpos), Nat.sub_zero]
  · exact (decide_eq_false (by rw [length_nil]; omega)).symm

/-- **`prio_tree_insert` returns an equal node, if there is one.** -/
theorem prio_tree_insert_found {q : Nat} (ht : Tree s.root.index_bits s lay) (hq : Member lay q)
    (heq : Equal s.heap q node) : prio_tree_insert s node = some (q, s) := by
  obtain ⟨σ, hσ⟩ := hq
  have hh := ht.links.hang
  have hfits : Fits s.heap s.root.index_bits node := by
    have hq := ht.wf.fits hσ
    unfold Fits at hq ⊢
    rw [← heq.1, ← heq.2]
    exact hq
  obtain ⟨top, htop⟩ := hh.exists_top hσ
  have hcond : ¬(prio_tree_empty s = true ∨
      s.heap.last node > prio_tree_maxindex s.root.index_bits) := by
    rintro (h | h)
    · rw [ht.links.empty_iff, htop] at h
      cases h
    have hge := (gt_maxindex_iff ht.bits_pos ht.bits_le).mp h
    have hlt := hfits.2
    omega
  have hdepth := ht.wf.depth ht.bits_le hh.closed hσ
  have hle := ht.bits_le
  unfold prio_tree_insert
  rw [if_neg hcond]
  exact insert_loop_found (walk_root ht htop hfits) hσ heq nil_suffix
    (by unfold LEVELS; rw [length_nil]; omega)

/-- **`prio_tree_insert` puts a node into the tree that is equal to no node there.** -/
theorem prio_tree_insert_new (ht : Tree s.root.index_bits s lay) (hnode : node ≠ 0)
    (hse : s.heap.start node ≤ s.heap.last node) (hmax : s.heap.last node < 2 ^ 32)
    (hdiffers : ∀ p, Member lay p → ¬Equal s.heap p node) :
    ∃ s' lay', prio_tree_insert s node = some (node, s') ∧ Inserted s lay node s' lay' := by
  have hnew : ¬Member lay node := fun h => hdiffers node h ⟨rfl, rfl⟩
  unfold prio_tree_insert
  cases htop : lay [] with
  | none =>
    have hempty := ht.links.empty_iff.mpr htop
    obtain ⟨s', lay', hexpand, hi⟩ := prio_tree_expand_empty ht htop hnode hse hmax
    rw [if_pos (.inl hempty), hexpand]
    exact ⟨s', lay', rfl, hi⟩
  | some top => ?_
  have hempty : ¬prio_tree_empty s = true := by
    rw [ht.links.empty_iff, htop]
    exact some_ne_none top
  by_cases hgt : s.heap.last node > prio_tree_maxindex s.root.index_bits
  · obtain ⟨s', lay', hexpand, hi⟩ := prio_tree_expand_more ht htop hnode hnew hse hmax hgt
    rw [if_pos (.inr hgt), hexpand]
    exact ⟨s', lay', rfl, hi⟩
  rw [if_neg fun h => h.elim hempty hgt]
  rw [gt_maxindex_iff ht.bits_pos ht.bits_le] at hgt
  have hle := ht.bits_le
  have hwalk := @walk_root _ _ node _ ht htop ⟨hse, by omega⟩
  have hfresh : Fresh s lay [] node := by
    refine ⟨hnode, hnew, hdiffers, ?_⟩
    intro b ρ q hnil
    cases hnil
  obtain ⟨s', lay', hloop, htree, hk, hmembers⟩ := @insert_loop_fresh _ _ _ _ LEVELS node hwalk hfresh (by unfold LEVELS; rw [length_nil]; omega)
  exact ⟨s', lay', hloop, htree, hk.start, hk.last, hmembers⟩

end insert

end Nubernel.PrioTree
