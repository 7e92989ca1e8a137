import Dominance.Proofs.Tree.Chain
import Dominance.Proofs.Tree.Frontier
import Dominance.Proofs.Tree.Shared

/-!
# Frontiers by walks

Frontiers are computed along the tree, in which a root stands in for the missing dominators of shared
blocks. Measured by walks, the frontier of such a root is wrong in two ways. It omits the shared
blocks that hang below the root and that something dominated by the root leads to: the merge points
of the root with other roots. It adds blocks that are led to from below a shared block only, which the
root does not dominate. All other frontiers are those that walks give.
-/

namespace Dominance

namespace Flow

/-- The block `x` dominates a predecessor of `y` and does not strictly dominate `y`. -/
def InFrontier (f : Flow) (roots : List Block) (x y : Block) : Prop :=
  ∃ p, f.Reaches roots p ∧ y ∈ f.successors p ∧ f.Dominates roots x p ∧
    ¬f.StrictlyDominates roots x y

variable {f : Flow} {roots : List Block} {c p x : Block}

/-- A root is the only block without dominators among the dominators of what it dominates. -/
theorem eq_of_root_dominates (hx : x ∈ f.validRoots roots) (hp : f.Reaches roots p)
    (hxp : f.Dominates roots x p) (hcp : f.Dominates roots c p)
    (alone : ∀ a, f.Dominates roots a c → a = c) : x = c := by
  obtain ⟨s, ws, hs⟩ := hxp.exists_walk hp
  apply alone
  apply hs
  exact hcp x hx s ws

/-- Two roots lead to one block, and the block leads back to the first. -/
def merge : Flow := ofLists 3 #[[⟨1⟩], [⟨0⟩], [⟨1⟩]]

/-- The two blocks that lead to the third. -/
def mergeRoots : List Block := [⟨0⟩, ⟨2⟩]

/-- All edges of the merge lead to its blocks. -/
theorem inRange_merge : merge.InRange := inRange_ofLists (by decide)

/-- The last block is a root of the merge. -/
theorem mem_mergeRoots : ⟨2⟩ ∈ merge.validRoots mergeRoots := by decide

/-- The last block leads to the one where the roots meet. -/
theorem mem_successors_merge : ⟨1⟩ ∈ merge.successors ⟨2⟩ := List.mem_singleton_self _

/-- The second root does not dominate the block, since the first root leads to it as well. -/
theorem not_dominates_merge : ¬merge.Dominates mergeRoots ⟨2⟩ ⟨1⟩ := by
  intro hdom
  have hwalk : merge.Walk ⟨0⟩ [⟨0⟩, ⟨1⟩] ⟨1⟩ := .step (List.mem_singleton_self _) (.single _)
  have hmem := hdom ⟨0⟩ (by decide) _ hwalk
  revert hmem
  decide

private theorem inFrontier_merge : merge.InFrontier mergeRoots ⟨2⟩ ⟨1⟩ :=
  ⟨⟨2⟩, reaches_of_mem mem_mergeRoots, mem_successors_merge, dominates_self _ _ _,
    fun h => not_dominates_merge h.2⟩

/-- Only the block leads to the first root, so nothing that the second root dominates does. -/
theorem not_inFrontier_merge : ¬merge.InFrontier mergeRoots ⟨2⟩ ⟨0⟩ := by
  rintro ⟨p, hp, hsucc, hdom, _⟩
  have hlt : p.index < 3 := of_decide_eq_true (hp.has inRange_merge)
  have honly : ∀ i < 3, (⟨0⟩ : Block) ∈ merge.successors ⟨i⟩ → i = 1 := by decide
  have hone : p = ⟨1⟩ := congrArg Block.mk (honly p.index hlt hsucc)
  rw [hone] at hdom
  exact not_dominates_merge hdom

end Flow

namespace Tree

/-- The block `y` is shared and hangs below `x`, and `x` dominates a predecessor of it. -/
def Omits (f : Flow) (roots : List Block) (t : Tree) (x y : Block) : Prop :=
  t.isShared y = true ∧ t.idom? y = some x ∧
    ∃ p, f.Reaches roots p ∧ y ∈ f.successors p ∧ f.Dominates roots x p

/-- The block `y` is not strictly below `x`. Something dominated by a shared block that hangs below
`x` leads to it, and nothing dominated by `x` does. -/
def Adds (f : Flow) (roots : List Block) (t : Tree) (x y : Block) : Prop :=
  t.strictlyDominates x y = false ∧
  (∃ c, t.isShared c = true ∧ t.idom? c = some x ∧
    ∃ p, f.Reaches roots p ∧ y ∈ f.successors p ∧ f.Dominates roots c p) ∧
  ∀ p, f.Reaches roots p → y ∈ f.successors p → ¬f.Dominates roots x p

variable {t : Tree} {f : Flow} {roots : List Block} {b p x y : Block}

namespace Exact

variable (ht : t.Exact f roots)
include ht

/-- The frontier that a tree gives for a reached block. -/
theorem exists_frontier (hx : f.Reaches roots x) :
    ∃ ys, t.frontier? x = some ys ∧ ∀ y, y ∈ ys ↔ t.InFrontier f roots x y := by
  have hdone := ht.mem_reverseTopological.mpr hx
  have hkey := (ht.hasFrontiers.key_iff x).mpr hdone
  refine ⟨t.frontiers.values x, Multimap.get?_of_containsKey hkey, fun y => ?_⟩
  rw [Multimap.mem_values]
  exact ht.hasFrontiers.value_iff x y hdone

private theorem strictlyDominates_eq_false_iff (hy : f.Reaches roots y) :
    t.strictlyDominates x y = false ↔ ¬(x ≠ y ∧ t.Above x y) := by
  rw [← Bool.not_eq_true, strictlyDominates, Bool.and_eq_true, bne_iff_ne, ht.dominates_iff_above]
  simp only [hy, true_and]

/-- Nothing hangs below itself. -/
theorem ne_of_idom? (h : t.idom? y = some x) : x ≠ y := by
  rintro rfl
  exact ht.not_above_idom h .refl

/-- A shared block is in the frontier, by walks, of a block that it hangs below and that leads to it,
but not in the one that the tree gives. -/
theorem inFrontier_of_omits (h : t.Omits f roots x y) :
    f.InFrontier roots x y ∧ ¬t.InFrontier f roots x y := by
  obtain ⟨hs, hd, p, hp, hyp, hxp⟩ := h
  constructor
  · refine ⟨p, hp, hyp, hxp, ?_⟩
    rintro ⟨hne, hxy⟩
    exact hne ((ht.placed_shared hs).2.2 x hxy)
  · rintro ⟨_, _, _, _, hout⟩
    exact hout ⟨ht.ne_of_idom? hd, .up hd .refl⟩

/-- What is led to from below a shared block is in the frontier that the tree gives. -/
theorem inFrontier_of_adds (h : t.Adds f roots x y) :
    t.InFrontier f roots x y ∧ ¬f.InFrontier roots x y := by
  obtain ⟨hout, ⟨c, _, hd, p, hp, hyp, hcp⟩, hnone⟩ := h
  constructor
  · refine ⟨p, hp, hyp, ?_, (ht.strictlyDominates_eq_false_iff (hp.successor hyp)).mp hout⟩
    have hxc : t.Above x c := .up hd .refl
    exact hxc.trans (ht.above_of_dominates hp hcp)
  · rintro ⟨p', hp', hyp', hxp', _⟩
    exact hnone p' hp' hyp' hxp'

/-- Nothing else is missing from the frontiers that a tree gives. -/
theorem inFrontier_of_walks (h : f.InFrontier roots x y) (hno : ¬t.Omits f roots x y) :
    t.InFrontier f roots x y := by
  obtain ⟨p, hp, hyp, hxp, hout⟩ := h
  refine ⟨p, hp, hyp, ht.above_of_dominates hp hxp, ?_⟩
  rintro ⟨hne, hxy⟩
  rcases (ht.above_iff (hp.successor hyp)).mp hxy with hdom | ⟨c, hs, hcy, hd⟩
  · exact hout ⟨hne, hdom⟩
  · by_cases hc : c = y
    · subst hc
      exact hno ⟨hs, hd, p, hp, hyp, hxp⟩
    · -- The shared block dominates the predecessor as well, which only a root can.
      have hcp : f.Dominates roots c p := Flow.StrictlyDominates.of_successor ⟨hc, hcy⟩ hyp
      obtain ⟨_, ⟨r, hr, hd'⟩, alone⟩ := ht.placed_shared hs
      rw [hd] at hd'
      cases hd'
      exact ht.ne_of_idom? hd (Flow.eq_of_root_dominates hr hp hxp hcp alone)

/-- Nothing else is too much in the frontiers that a tree gives. -/
theorem walks_of_inFrontier (h : t.InFrontier f roots x y) (hno : ¬t.Adds f roots x y) :
    f.InFrontier roots x y := by
  obtain ⟨p, hp, hyp, hxp, hout⟩ := h
  have hy := hp.successor hyp
  have hstrict : ¬f.StrictlyDominates roots x y := by
    rintro ⟨hne, hdom⟩
    exact hout ⟨hne, ht.above_of_dominates hy hdom⟩
  apply Classical.byContradiction
  intro hF
  have hnone : ∀ p, f.Reaches roots p → y ∈ f.successors p → ¬f.Dominates roots x p :=
    fun p hp hyp hxp => hF ⟨p, hp, hyp, hxp, hstrict⟩
  rcases (ht.above_iff hp).mp hxp with hdom | ⟨c, hs, hcp, hd⟩
  · exact hnone p hp hyp hdom
  · exact hno ⟨(ht.strictlyDominates_eq_false_iff hy).mpr hout, ⟨c, hs, hd, p, hp, hyp, hcp⟩, hnone⟩

/-- Tree and walks agree on a frontier exactly where nothing is omitted or added. -/
theorem inFrontier_agrees_iff : (t.InFrontier f roots x y ↔ f.InFrontier roots x y) ↔
    ¬t.Omits f roots x y ∧ ¬t.Adds f roots x y := by
  constructor
  · intro h
    refine ⟨fun ho => ?_, fun ha => ?_⟩
    · have := ht.inFrontier_of_omits ho
      exact this.2 (h.mpr this.1)
    · have := ht.inFrontier_of_adds ha
      exact this.2 (h.mp this.1)
  · rintro ⟨ho, ha⟩
    exact ⟨fun h => ht.walks_of_inFrontier h ha, fun h => ht.inFrontier_of_walks h ho⟩

end Exact

/-- The frontier that a tree built from an in-range flow gives for a reached block is right about a
block, measured by walks, exactly if it neither omits nor adds that block on account of shared blocks.
So it is right throughout for every block that no shared block hangs below. -/
theorem frontier_paths_build (f : Flow) (hf : f.InRange) (roots : List Block) :
    let t := (build f roots).value
    ∀ x, f.Reaches roots x → ∃ ys, t.frontier? x = some ys ∧
      (∀ y, (y ∈ ys ↔ f.InFrontier roots x y) ↔
        ¬t.Omits f roots x y ∧ ¬t.Adds f roots x y) ∧
      ((∀ c, t.isShared c = true → t.idom? c ≠ some x) →
        ∀ y, y ∈ ys ↔ f.InFrontier roots x y) := by
  intro t x hx
  have ht : t.Exact f roots := exact_build hf roots
  obtain ⟨ys, hys, hmem⟩ := ht.exists_frontier hx
  have hright : ∀ y, (y ∈ ys ↔ f.InFrontier roots x y) ↔
      ¬t.Omits f roots x y ∧ ¬t.Adds f roots x y := by
    intro y
    rw [hmem]
    exact ht.inFrontier_agrees_iff
  refine ⟨ys, hys, hright, fun hfree y => (hright y).mpr ⟨?_, ?_⟩⟩
  · rintro ⟨hs, hd, _⟩
    exact hfree y hs hd
  · rintro ⟨_, ⟨c, hs, hd, _⟩, _⟩
    exact hfree c hs hd

/-- The block at which two roots merge is missing from the frontier of the root that it hangs below,
and the frontier of the other root is right. -/
theorem frontier_paths_merge :
    Flow.merge.InRange ∧
      let t := (build Flow.merge Flow.mergeRoots).value
      (∃ ys, t.frontier? ⟨2⟩ = some ys ∧
        ¬(⟨1⟩ ∈ ys ↔ Flow.merge.InFrontier Flow.mergeRoots ⟨2⟩ ⟨1⟩)) ∧
      (∃ ys, t.frontier? ⟨0⟩ = some ys ∧
        ∀ y, y ∈ ys ↔ Flow.merge.InFrontier Flow.mergeRoots ⟨0⟩ y) := by
  have h := frontier_paths_build Flow.merge Flow.inRange_merge Flow.mergeRoots
  refine ⟨Flow.inRange_merge, ?_, ?_⟩
  · obtain ⟨ys, hys, hright, _⟩ := h ⟨2⟩ (Flow.reaches_of_mem Flow.mem_mergeRoots)
    refine ⟨ys, hys, fun hiff => ((hright ⟨1⟩).mp hiff).1 ⟨?_, ?_, ?_⟩⟩
    · decide +kernel
    · decide +kernel
    · exact ⟨⟨2⟩, Flow.reaches_of_mem Flow.mem_mergeRoots, Flow.mem_successors_merge,
        Flow.dominates_self _ _ _⟩
  · obtain ⟨ys, hys, _, hfree⟩ := h ⟨0⟩ (Flow.reaches_of_mem (by decide))
    refine ⟨ys, hys, hfree ?_⟩
    intro c hs hd
    have hreach := (exact_build Flow.inRange_merge Flow.mergeRoots).reaches_of_isShared hs
    have hlt : c.index < 3 := of_decide_eq_true (hreach.has Flow.inRange_merge)
    have hnone : ∀ i < 3, (build Flow.merge Flow.mergeRoots).value.idom? ⟨i⟩ ≠ some ⟨0⟩ := by
      decide +kernel
    exact hnone c.index hlt hd

/-- The frontier of a root lacks the block at which another root merges with it, and holds a block
that only the merged walks lead to. -/
theorem frontier_merge_wrong :
    Flow.merge.InRange ∧ Flow.merge.Reaches Flow.mergeRoots ⟨2⟩ ∧
      (build Flow.merge Flow.mergeRoots).value.frontier? ⟨2⟩ = some [⟨0⟩] ∧
      Flow.merge.InFrontier Flow.mergeRoots ⟨2⟩ ⟨1⟩ ∧
      ¬Flow.merge.InFrontier Flow.mergeRoots ⟨2⟩ ⟨0⟩ := by
  refine ⟨Flow.inRange_merge, Flow.reaches_of_mem Flow.mem_mergeRoots, ?_, Flow.inFrontier_merge,
    Flow.not_inFrontier_merge⟩
  decide +kernel

end Tree
end Dominance
