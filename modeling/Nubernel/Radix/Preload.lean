import Nubernel.Radix.Tags

/-! # radix-tree: preloading

`radix_tree_preload` fills the pool of a CPU with nodes. A tree without
`__GFP_WAIT` takes its nodes from there, and asks `kmem_cache_alloc` when the
pool is empty.

The pool is too small for a tree that has to grow: it may need a path of nodes above the old
root and another one below the new root.
-/

open List

namespace Nubernel.Radix

/-- What it returns, and `nr` of the pool that it leaves
behind. For each node that is asked for, whether there is one, and `nr` of
the CPU on which the task goes on. -/
def radix_tree_preload (nr : Nat) : List (Bool × Nat) → Int × Nat
  | [] => (if nr < RADIX_TREE_MAX_PATH then -ENOMEM else 0, nr)
  | (ok, nr') :: kmem =>
    if nr < RADIX_TREE_MAX_PATH then
      if ok then radix_tree_preload (if nr' < RADIX_TREE_MAX_PATH then nr' + 1 else nr') kmem
      else (-ENOMEM, nr)
    else
      (0, nr)

/-- The requests of a tree without `__GFP_WAIT`, where `kmem` is what
`kmem_cache_alloc` has when the pool is empty. -/
def pooled (nr : Nat) (kmem : List Bool) : List Bool := replicate nr true ++ kmem

theorem granted_pooled {n : Nat} :
    (∀ kmem, Granted n (pooled RADIX_TREE_MAX_PATH kmem)) ↔ n ≤ RADIX_TREE_MAX_PATH := by
  unfold Granted pooled
  constructor
  · intro h
    have hlen := congrArg length (h [])
    rw [append_nil, take_replicate, length_replicate, length_replicate] at hlen
    omega
  intro hle kmem
  rw [take_append_of_le_length (by rw [length_replicate]; exact hle), take_replicate,
    Nat.min_eq_left hle]

/-- The pool has what is needed if and only if the tree is empty, or high enough for the
index, or nearly so. -/
theorem needed_le_iff {root : Root} {index : Nat} (hinv : Inv root) (hindex : index < 2 ^ 32) :
    needed root index ≤ RADIX_TREE_MAX_PATH ↔
      index < 64 ^ root.height ∨ root.rnode.isNull = true ∨
        2 * Nat.log 64 index ≤ root.height + 5 := by
  have hlog := log_le_five hindex
  have hmissing : missing index root.height root.rnode ≤ root.height := missing_le root.rnode
  have hheight := hinv.height
  unfold needed
  by_cases hfits : index < 64 ^ root.height
  · rw [if_pos hfits]
    exact iff_of_true (hmissing.trans hheight) (.inl hfits)
  have hhigh : root.height ≤ Nat.log 64 index :=
    Nat.le_log_of_pow_le (by decide) (Nat.le_of_not_lt hfits)
  rw [if_neg hfits]
  unfold RADIX_TREE_MAX_PATH at *
  by_cases hnull : root.rnode.isNull = true
  · rw [if_pos hnull]
    exact iff_of_true (by omega) (.inr (.inl hnull))
  rw [if_neg hnull, or_iff_right hfits, or_iff_right hnull]
  omega

section preload
variable {nr nr' : Nat} {nodes : List (Bool × Nat)}
  (hpreload : radix_tree_preload nr nodes = (0, nr')) (hnr : nr ≤ RADIX_TREE_MAX_PATH)
  (hnodes : ∀ node ∈ nodes, node.2 ≤ RADIX_TREE_MAX_PATH)
include hpreload hnr hnodes

/-- A pool has room for six nodes, and is full after a successful preload. -/
theorem preload_full : nr' = RADIX_TREE_MAX_PATH := by
  induction nodes generalizing nr with
  | nil =>
    unfold radix_tree_preload at hpreload
    split at hpreload
    · cases hpreload
    cases hpreload
    omega
  | cons node nodes ih => ?_
  unfold radix_tree_preload at hpreload
  split at hpreload
  · split at hpreload
    · have := hnodes node mem_cons_self
      exact ih hpreload (by split <;> omega) fun n hn => hnodes n (mem_cons_of_mem _ hn)
    · cases hpreload
  cases hpreload
  omega

/-- **Main theorem.** An insertion after a successful preload needs no node but those of the
pool, whatever `kmem_cache_alloc` has, if and only if the tree is empty, or high enough for
the index, or the levels that it lacks and those below them are six at most. -/
theorem preloaded_insert_has_memory {root : Root} {ls : List Label}
    (hrun : radix.Steps INIT_RADIX_TREE ls root) {index p : Nat} (hindex : index < 2 ^ 32)
    (hp : p % 2 = 0) :
    (∀ kmem, ∃ ret root', radix_tree_insert root index p (pooled nr' kmem) = some (ret, root') ∧
      ret ≠ -ENOMEM) ↔
      index < 64 ^ root.height ∨ root.rnode.isNull = true ∨
        2 * Nat.log 64 index ≤ root.height + 5 := by
  have hinv := Inv.init.steps hrun
  rw [preload_full hpreload hnr hnodes, ← needed_le_iff hinv hindex, ← granted_pooled]
  refine forall_congr' fun kmem => ?_
  obtain ⟨ret, root', heq, hspec⟩ := @radix_tree_insert_spec (pooled RADIX_TREE_MAX_PATH kmem) _ _ _
    hinv hindex hp
  constructor
  · rintro ⟨ret₁, root₁, heq₁, hret⟩
    cases heq.symm.trans heq₁
    by_cases hfree : item root index = none
    · rcases hspec.free hfree with ⟨_, hgr⟩ | ⟨hnomem, _⟩
      · exact hgr
      exact absurd hnomem hret
    -- The tree is high enough for an item that is there.
    have hfits : index < 64 ^ root.height := by
      by_contra hnot
      exact hfree (if_neg hnot)
    exact granted_pooled.mpr ((needed_le_iff hinv hindex).mpr (.inl hfits)) kmem
  intro hgr
  refine ⟨ret, root', heq, fun hret => ?_⟩
  by_cases hfree : item root index = none
  · rcases hspec.free hfree with ⟨hzero, _⟩ | ⟨_, hnot⟩
    · rw [hret] at hzero
      exact absurd hzero (by decide)
    exact hnot hgr
  rw [hspec.taken hfree] at hret
  exact absurd hret (by decide)

end preload

/-- A pool that is filled up from empty. -/
def six_nodes : List (Bool × Nat) := (range 6).map fun nr => (true, nr)

/-- The largest index in an empty tree. -/
theorem preloaded_insert_has_memory_empty : ∃ ret root',
    radix_tree_insert INIT_RADIX_TREE (2 ^ 32 - 1) 4 (pooled 6 []) = some (ret, root') ∧
      ret ≠ -ENOMEM :=
  (preloaded_insert_has_memory (show radix_tree_preload 0 six_nodes = (0, 6) by decide)
    (by decide) (by decide) (.nil _) (by decide) (by decide)).mpr (.inr (.inl rfl)) []

/-- The largest index in a tree with an item at 0. -/
theorem preloaded_insert_lacks_memory : ∃ ls root, radix.Steps INIT_RADIX_TREE ls root ∧
    radix_tree_preload 0 six_nodes = (0, 6) ∧
    (radix_tree_insert root (2 ^ 32 - 1) 4 (pooled 6 [])).map Prod.fst = some (-ENOMEM) :=
  ⟨_, _, steps_of_play (show playable INIT_RADIX_TREE [.insert 0 4 []] = true by decide +kernel),
    by decide, by decide +kernel⟩

end Nubernel.Radix
