
/-! # Doubly linked lists

Nodes with a `next` and a `prev`, of which some make up a list: each points
to its neighbours, and the first one back to nothing. Putting a node in
front and taking one out change the links of the neighbours only; the two
lemmas say that with the new links given as functions, however they are
stored.
-/

open List

namespace Dlist

variable {ν : Type}

/-- The nodes of the list point to each other; `before` comes before the first. -/
def Linked (next prev : ν → Option ν) : Option ν → List ν → Prop
  | _, [] => True
  | before, n :: l => prev n = before ∧ next n = l.head? ∧ Linked next prev (some n) l

variable {next prev next' prev' : ν → Option ν} {before : Option ν} {l : List ν} {n : ν}

/-- Only the links of the nodes in the list matter. -/
theorem Linked.congr (hnext : ∀ x ∈ l, next' x = next x) (hprev : ∀ x ∈ l, prev' x = prev x)
    (hl : Linked next prev before l) : Linked next' prev' before l := by
  induction l generalizing before with
  | nil => trivial
  | cons m l ih => ?_
  obtain ⟨hp, hn, hrest⟩ := hl
  refine ⟨?_, ?_, ih (fun x hx => hnext x (mem_cons_of_mem m hx))
    (fun x hx => hprev x (mem_cons_of_mem m hx)) hrest⟩
  · rw [hprev m mem_cons_self, hp]
  · rw [hnext m mem_cons_self, hn]

/-- What the links of a node in the list are. -/
theorem Linked.mem_cases (hl : Linked next prev before l) (hn : n ∈ l) :
    ∃ pre post, l = pre ++ n :: post ∧ next n = post.head? ∧
      prev n = pre.getLast?.or before := by
  induction l generalizing before with
  | nil => exact absurd hn not_mem_nil
  | cons m l ih => ?_
  obtain ⟨hp, hnx, hrest⟩ := hl
  rcases mem_cons.mp hn with rfl | hmem
  · exact ⟨[], l, rfl, hnx, by simp [hp]⟩
  obtain ⟨pre, post, rfl, hnext, hprev⟩ := ih hrest hmem
  refine ⟨m :: pre, post, rfl, hnext, ?_⟩
  rw [hprev, List.getLast?_cons]
  cases pre.getLast? <;> rfl

variable [DecidableEq ν]

/-- The first node may get another predecessor. -/
theorem Linked.rebase {before' : Option ν} (hnodup : l.Nodup)
    (hnext : ∀ x ∈ l, next' x = next x)
    (hprev : ∀ x ∈ l, prev' x = if l.head? = some x then before' else prev x)
    (hl : Linked next prev before l) : Linked next' prev' before' l := by
  cases l with
  | nil => trivial
  | cons m l => ?_
  obtain ⟨hp, hn, hrest⟩ := hl
  have hm : m ∉ l := (nodup_cons.mp hnodup).1
  refine ⟨?_, ?_, hrest.congr (fun x hx => hnext x (mem_cons_of_mem m hx)) ?_⟩
  · rw [hprev m mem_cons_self, List.head?_cons, if_pos rfl]
  · rw [hnext m mem_cons_self, hn]
  intro x hx
  have hne : ¬(m :: l).head? = some x := by
    rw [List.head?_cons, Option.some.injEq]
    rintro rfl
    exact hm hx
  rw [hprev x (mem_cons_of_mem m hx), if_neg hne]

theorem Linked.push (hn : n ∉ l) (hnodup : l.Nodup)
    (hnext : ∀ x, x = n ∨ x ∈ l → next' x = if x = n then l.head? else next x)
    (hprev : ∀ x, x = n ∨ x ∈ l →
      prev' x = if x = n then none else if l.head? = some x then some n else prev x)
    (hl : Linked next prev before l) : Linked next' prev' none (n :: l) := by
  have hne : ∀ x ∈ l, x ≠ n := by
    rintro x hx rfl
    exact hn hx
  refine ⟨?_, ?_, hl.rebase hnodup ?_ ?_⟩
  · rw [hprev n (.inl rfl), if_pos rfl]
  · rw [hnext n (.inl rfl), if_pos rfl]
  · intro x hx
    rw [hnext x (.inr hx), if_neg (hne x hx)]
  intro x hx
  rw [hprev x (.inr hx), if_neg (hne x hx)]

/-- **A node is taken out**: the one before it gets its successor, and the one
behind it its predecessor. -/
theorem Linked.remove [BEq ν] [LawfulBEq ν] (hn : n ∈ l) (hnodup : l.Nodup)
    (hbefore : ∀ b, before = some b → b ∉ l)
    (hnext : ∀ x ∈ l.erase n, next' x = if prev n = some x then next n else next x)
    (hprev : ∀ x ∈ l.erase n, prev' x = if next n = some x then prev n else prev x)
    (hl : Linked next prev before l) : Linked next' prev' before (l.erase n) := by
  induction l generalizing before with
  | nil => exact absurd hn not_mem_nil
  | cons m l ih => ?_
  obtain ⟨hp, hnx, hrest⟩ := hl
  obtain ⟨hm, hnodup'⟩ := nodup_cons.mp hnodup
  by_cases hmn : m = n
  · -- The first node.
    subst hmn
    rw [erase_cons_head] at hnext hprev ⊢
    refine hrest.rebase hnodup' ?_ ?_
    · intro x hx
      have hne : ¬prev m = some x := by
        rw [hp]
        intro heq
        exact hbefore x heq (mem_cons_of_mem m hx)
      rw [hnext x hx, if_neg hne]
    intro x hx
    rw [hprev x hx, hnx, hp]
  have hmem : n ∈ l := (mem_cons.mp hn).resolve_left (fun h => hmn h.symm)
  rw [erase_cons_tail (by simpa using hmn)] at hnext hprev ⊢
  have hlast : ∀ b, some m = some b → b ∉ l := by
    rintro b hb
    cases hb
    exact hm
  -- The first node stays; it is before `n` if `n` is the second one.
  obtain ⟨pre, post, hsplit, hnextn, hprevn⟩ := hrest.mem_cases hmem
  refine ⟨?_, ?_, ih hmem hnodup' hlast (fun x hx => hnext x (mem_cons_of_mem m hx))
    (fun x hx => hprev x (mem_cons_of_mem m hx)) hrest⟩
  · have hne : ¬next n = some m := by
      rw [hnextn]
      intro heq
      apply hm
      rw [hsplit]
      have hpost := mem_of_head? heq
      simp [hpost]
    rw [hprev m mem_cons_self, if_neg hne, hp]
  rw [hnext m mem_cons_self]
  cases pre with
  | nil =>
    have hfirst : prev n = some m := by
      rw [hprevn]
      rfl
    rw [if_pos hfirst, hnextn, hsplit]
    simp
  | cons k pre => ?_
  have hkn : k ≠ n := by
    rintro rfl
    rw [hsplit] at hnodup'
    simp at hnodup'
  have hne : ¬prev n = some m := by
    rw [hprevn]
    intro heq
    apply hm
    rw [hsplit]
    cases hlast' : (k :: pre).getLast? with
    | none => simp at hlast'
    | some z => ?_
    rw [hlast'] at heq
    cases heq
    have hz := mem_of_getLast? hlast'
    exact mem_append_left _ hz
  rw [if_neg hne, hnx, hsplit, cons_append, erase_cons_tail (by simpa using hkn)]
  rfl

end Dlist
