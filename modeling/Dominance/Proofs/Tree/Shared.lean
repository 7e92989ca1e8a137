import Dominance.Proofs.DisjointWalks
import Dominance.Proofs.Tree.Above

/-!
# Shared blocks

A tree marks a block as shared because nothing dominates it. That is so exactly if two roots lead to
it along walks that have nothing else in common.
-/

namespace Dominance
namespace Tree

variable {t : Tree} {f : Flow} {roots : List Block} {b : Block}

namespace Exact

variable (ht : t.Exact f roots)
include ht

/-- A block that is no root is shared exactly if disjoint walks meet at it. -/
theorem isShared_iff_meets (hb : f.Reaches roots b) (hr : b ∉ roots) :
    t.isShared b = true ↔ f.Meets roots b := by
  constructor
  · intro h
    obtain ⟨r, hroot, p, w⟩ := hb
    apply w.meets hroot
    · exact fun hmem => hr (List.mem_filter.mp hmem).1
    · exact (ht.placed_shared h).2.2
  · intro h
    cases ht.placed b hb with
    | root mem _ _ => exact absurd (List.mem_filter.mp mem).1 hr
    | shared _ _ _ _ _ shared _ => exact shared
    | below d _ _ _ nearest => exact absurd (h.eq_of_dominates nearest.1.2) nearest.1.1

end Exact

/-- In a tree built from an in-range flow, a reached block that is no root is shared exactly if two
roots lead to it along walks that have only the block in common. With one root no block is shared. -/
theorem shared_build (f : Flow) (hf : f.InRange) (roots : List Block) :
    let t := (build f roots).value
    (∀ b, f.Reaches roots b → b ∉ roots →
      (t.isShared b = true ↔
        ∃ r₁ ∈ f.validRoots roots, ∃ r₂ ∈ f.validRoots roots, r₁ ≠ r₂ ∧
          ∃ p q, f.Walk r₁ p b ∧ f.Walk r₂ q b ∧ ∀ x, x ∈ p → x ∈ q → x = b)) ∧
    ((∀ r₁ ∈ f.validRoots roots, ∀ r₂ ∈ f.validRoots roots, r₁ = r₂) →
      ∀ b, t.isShared b = false) := by
  intro t
  have ht : t.Exact f roots := exact_build hf roots
  refine ⟨fun b hb hr => ht.isShared_iff_meets hb hr, fun hone b => ?_⟩
  rw [← Bool.not_eq_true]
  intro h
  have hmeets := (ht.isShared_iff_meets (ht.reaches_of_isShared h) (ht.placed_shared h).1).mp h
  obtain ⟨r₁, hr₁, r₂, hr₂, hne, _⟩ := hmeets
  exact hne (hone r₁ hr₁ r₂ hr₂)

/-- The loop that two roots lead into is shared at its entry; with one of the roots it is not. -/
theorem shared_crossing :
    Flow.crossing.InRange ∧ Flow.crossing.Reaches Flow.crossingRoots ⟨2⟩ ∧
      ⟨2⟩ ∉ Flow.crossingRoots ∧
      (build Flow.crossing Flow.crossingRoots).value.isShared ⟨2⟩ = true ∧
      (build Flow.crossing [⟨0⟩]).value.isShared ⟨2⟩ = false := by
  have hr : (⟨2⟩ : Block) ∉ Flow.crossingRoots := by decide
  refine ⟨Flow.inRange_crossing, Flow.reaches_crossing, hr, ?_, ?_⟩
  · apply ((shared_build _ Flow.inRange_crossing _).1 _ Flow.reaches_crossing hr).mpr
    refine ⟨⟨0⟩, Flow.mem_crossingRoots (by omega), ⟨1⟩, Flow.mem_crossingRoots (by omega), by decide,
      _, _, Flow.walk_crossing (by omega), Flow.walk_crossing (by omega), ?_⟩
    intro x h0 h1
    simp only [List.mem_cons, List.not_mem_nil, or_false] at h0 h1
    rcases h0 with rfl | h0
    · rcases h1 with h1 | h1
      · cases h1
      · exact h1
    · exact h0
  · apply (shared_build _ Flow.inRange_crossing _).2
    decide

end Tree
end Dominance
