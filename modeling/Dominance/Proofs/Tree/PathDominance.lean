import Dominance.Proofs.Tree.PathFrontier

/-!
# Dominance by walks

A tree answers whether one block dominates another by going up from the second. Measured by walks it
never misses a dominator, but it also names the root that a shared block hangs below. Such a root
stands in for dominators that are missing: another root leads to the shared block around it. These are
the only wrong answers, and there are none while all roots are one block.
-/

namespace Dominance
namespace Tree

/-- A shared block that dominates `b` hangs below `a`. -/
def StandsIn (f : Flow) (roots : List Block) (t : Tree) (a b : Block) : Prop :=
  ∃ c, t.isShared c = true ∧ f.Dominates roots c b ∧ t.idom? c = some a

variable {t : Tree} {f : Flow} {roots : List Block} {a b r : Block}

namespace Exact

variable (ht : t.Exact f roots)
include ht

/-- A tree names dominators and stand-ins. -/
theorem dominates_iff_or_standsIn : t.dominates a b = true ↔
    f.Reaches roots b ∧ (f.Dominates roots a b ∨ t.StandsIn f roots a b) := by
  rw [ht.dominates_iff_above]
  apply and_congr_right
  intro hb
  exact ht.above_iff hb

/-- Only roots stand in. -/
theorem root_of_standsIn (h : t.StandsIn f roots a b) : a ∈ f.validRoots roots := by
  obtain ⟨c, hs, _, hd⟩ := h
  obtain ⟨_, ⟨r, hr, hd'⟩, _⟩ := ht.placed_shared hs
  rw [hd] at hd'
  cases hd'
  exact hr

/-- A stand-in is no dominator. -/
theorem not_dominates_of_standsIn (hb : f.Reaches roots b) (h : t.StandsIn f roots a b) :
    ¬f.Dominates roots a b := by
  intro hab
  have hroot := ht.root_of_standsIn h
  obtain ⟨c, hs, hcb, hd⟩ := h
  have alone := (ht.placed_shared hs).2.2
  exact ht.ne_of_idom? hd (Flow.eq_of_root_dominates hroot hb hab hcb alone)

/-- Another root leads around a stand-in. -/
theorem exists_walk_around (hb : f.Reaches roots b) (h : t.StandsIn f roots a b) :
    ∃ r ∈ f.validRoots roots, r ≠ a ∧ ∃ p, f.Walk r p b ∧ a ∉ p := by
  have hnot := ht.not_dominates_of_standsIn hb h
  simp only [Flow.Dominates, not_forall] at hnot
  obtain ⟨r, hr, p, w, ha⟩ := hnot
  refine ⟨r, hr, ?_, p, w, ha⟩
  rintro rfl
  exact ha w.head_mem

/-- The answer of a tree is right by walks exactly if it is not the name of a stand-in. -/
theorem dominates_agrees_iff :
    (t.dominates a b = true ↔
      f.Reaches roots a ∧ f.Reaches roots b ∧ f.Dominates roots a b) ↔
    ¬(f.Reaches roots b ∧ t.StandsIn f roots a b) := by
  rw [ht.dominates_iff_or_standsIn]
  constructor
  · rintro h ⟨hb, hs⟩
    exact ht.not_dominates_of_standsIn hb hs (h.mp ⟨hb, Or.inr hs⟩).2.2
  · intro hno
    constructor
    · rintro ⟨hb, hab | hs⟩
      · exact ⟨hab.reaches hb, hb, hab⟩
      · exact absurd ⟨hb, hs⟩ hno
    · rintro ⟨_, hb, hab⟩
      exact ⟨hb, Or.inl hab⟩

/-- Nothing stands in where all roots are one block. -/
theorem not_standsIn_of_one_root (hone : ∀ x ∈ f.validRoots roots, x = r)
    (hb : f.Reaches roots b) : ¬t.StandsIn f roots a b := by
  intro h
  have ha := hone a (ht.root_of_standsIn h)
  obtain ⟨x, hx, hne, _⟩ := ht.exists_walk_around hb h
  exact hne ((hone x hx).trans ha.symm)

end Exact

/-- The answer of a tree built from an in-range flow to the question whether `a` dominates `b` is right
by walks unless `a` stands in for missing dominators of `b`. Then it is wrongly yes: `a` is a root,
and another root leads to `b` around it. So every answer is right where all roots are one block. -/
theorem dominates_paths_build (f : Flow) (hf : f.InRange) (roots : List Block) :
    let t := (build f roots).value
    (∀ a b, (t.dominates a b = true ↔
        f.Reaches roots a ∧ f.Reaches roots b ∧ f.Dominates roots a b) ↔
      ¬(f.Reaches roots b ∧ t.StandsIn f roots a b)) ∧
    (∀ a b, f.Reaches roots b → t.StandsIn f roots a b →
      t.dominates a b = true ∧ a ∈ f.validRoots roots ∧
        ∃ r ∈ f.validRoots roots, r ≠ a ∧ ∃ p, f.Walk r p b ∧ a ∉ p) ∧
    (∀ r, (∀ x ∈ f.validRoots roots, x = r) → ∀ a b, t.dominates a b = true ↔
      f.Reaches roots a ∧ f.Reaches roots b ∧ f.Dominates roots a b) := by
  intro t
  have ht : t.Exact f roots := exact_build hf roots
  refine ⟨fun a b => ht.dominates_agrees_iff, fun a b hb hs => ?_, fun r hone a b => ?_⟩
  · exact ⟨ht.dominates_iff_or_standsIn.mpr ⟨hb, Or.inr hs⟩, ht.root_of_standsIn hs,
      ht.exists_walk_around hb hs⟩
  · apply ht.dominates_agrees_iff.mpr
    rintro ⟨hb, hs⟩
    exact ht.not_standsIn_of_one_root hone hb hs

/-- Of two roots that merge, the tree names the one that the block hangs below, and rightly leaves out
the other. -/
theorem dominates_paths_merge :
    Flow.merge.InRange ∧
      let t := (build Flow.merge Flow.mergeRoots).value
      ¬(t.dominates ⟨2⟩ ⟨1⟩ = true ↔ Flow.merge.Reaches Flow.mergeRoots ⟨2⟩ ∧
        Flow.merge.Reaches Flow.mergeRoots ⟨1⟩ ∧ Flow.merge.Dominates Flow.mergeRoots ⟨2⟩ ⟨1⟩) ∧
      (t.dominates ⟨0⟩ ⟨1⟩ = true ↔ Flow.merge.Reaches Flow.mergeRoots ⟨0⟩ ∧
        Flow.merge.Reaches Flow.mergeRoots ⟨1⟩ ∧ Flow.merge.Dominates Flow.mergeRoots ⟨0⟩ ⟨1⟩) := by
  have h := dominates_paths_build Flow.merge Flow.inRange_merge Flow.mergeRoots
  refine ⟨Flow.inRange_merge, ?_, ?_⟩
  · intro hiff
    refine (h.1 ⟨2⟩ ⟨1⟩).mp hiff ⟨?_, ⟨1⟩, ?_, Flow.dominates_self _ _ _, ?_⟩
    · exact (Flow.reaches_of_mem Flow.mem_mergeRoots).successor Flow.mem_successors_merge
    · decide +kernel
    · decide +kernel
  · apply (h.1 ⟨0⟩ ⟨1⟩).mpr
    rintro ⟨hb, hs⟩
    have hno : (build Flow.merge Flow.mergeRoots).value.dominates ⟨0⟩ ⟨1⟩ = false := by
      decide +kernel
    rw [(h.2.1 ⟨0⟩ ⟨1⟩ hb hs).1] at hno
    cases hno

/-- The tree says that a root dominates the block at which another root merges with it. -/
theorem dominates_merge_wrong :
    Flow.merge.InRange ∧ (build Flow.merge Flow.mergeRoots).value.dominates ⟨2⟩ ⟨1⟩ = true ∧
      ¬Flow.merge.Dominates Flow.mergeRoots ⟨2⟩ ⟨1⟩ :=
  ⟨Flow.inRange_merge, by decide +kernel, Flow.not_dominates_merge⟩

end Tree
end Dominance
