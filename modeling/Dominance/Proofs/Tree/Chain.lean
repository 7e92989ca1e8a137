import Dominance.Proofs.Tree.Above

/-!
# Chains of dominators

The chain that a tree lists for a block holds the dominators of the block, each followed by its
immediate dominator. Only a root at its end may be a stand-in: it is one exactly if the block before
it is shared, and no other block of the chain is.
-/

namespace Dominance
namespace Tree

/-- A chain without the root at its end, if that only stands in for a missing dominator. -/
def proper (t : Tree) (l : List Block) : List Block :=
  if l.dropLast.getLast?.any t.isShared then l.dropLast else l

variable {t : Tree} {f : Flow} {roots : List Block} {a b c d r : Block} {l : List Block}

/-- The chain of a root is proper. -/
@[simp] theorem proper_singleton (t : Tree) (b : Block) : t.proper [b] = [b] := rfl

private theorem proper_pair_of_isShared (h : t.isShared b = true) : t.proper [b, r] = [b] := by
  simp [proper, h]

/-- A chain keeps a first block that is not shared. -/
theorem proper_cons (hb : t.isShared b = false) (hl : l ≠ []) :
    t.proper (b :: l) = b :: t.proper l := by
  unfold proper
  rw [List.dropLast_cons_of_ne_nil hl, List.getLast?_cons]
  cases l.dropLast.getLast? with
  | none => simp [hb]
  | some c => by_cases hc : t.isShared c = true <;> simp [hc]

/-- A chain and its proper part begin with the same block. -/
theorem head?_proper (t : Tree) (l : List Block) : (t.proper l).head? = l.head? := by
  unfold proper
  split
  · next h =>
    rcases l with _ | ⟨b, _ | ⟨c, l⟩⟩
    · rfl
    · cases h
    · rfl
  · rfl

/-- What the way up from a block says about its dominators. -/
structure ChainOf (f : Flow) (roots : List Block) (t : Tree) (b : Block) (l : List Block) : Prop where
  mem_proper_iff : ∀ a, a ∈ t.proper l ↔ f.Dominates roots a b
  isChain_proper : (t.proper l).IsChain fun c d => f.ImmediatelyDominates roots d c
  shared_index : ∀ i c, l[i]? = some c → t.isShared c = true → i + 2 = l.length

/-- A root is a chain by itself. -/
theorem ChainOf.root (hb : b ∈ f.validRoots roots) (hs : t.isShared b = false) :
    t.ChainOf f roots b [b] where
  mem_proper_iff a := by
    rw [proper_singleton, List.mem_singleton]
    constructor
    · rintro rfl
      exact f.dominates_self roots a
    · exact Flow.eq_of_dominates_root hb
  isChain_proper := .singleton b
  shared_index i c hc h := by
    rw [List.mem_singleton.mp (List.mem_of_getElem? hc), hs] at h
    cases h

/-- The chain of a shared block is the block and the root that stands in for a dominator. -/
theorem ChainOf.shared (hb : t.isShared b = true) (hr : t.isShared r = false)
    (alone : ∀ a, f.Dominates roots a b → a = b) : t.ChainOf f roots b [b, r] where
  mem_proper_iff a := by
    rw [proper_pair_of_isShared hb, List.mem_singleton]
    constructor
    · rintro rfl
      exact f.dominates_self roots a
    · exact alone a
  isChain_proper := by
    rw [proper_pair_of_isShared hb]
    exact .singleton b
  shared_index i c hc h := by
    rcases i with _ | _ | i
    · rfl
    · cases hc
      rw [hr] at h
      cases h
    · cases hc

/-- The chain of another block goes on with that of its immediate dominator. -/
theorem ChainOf.below (hb : t.isShared b = false) (himm : f.ImmediatelyDominates roots d b)
    (hl : l.head? = some d) (hc : t.ChainOf f roots d l) : t.ChainOf f roots b (b :: l) := by
  have hne : l ≠ [] := by
    rintro rfl
    cases hl
  refine ⟨fun a => ?_, ?_, fun i c hi h => ?_⟩
  · rw [proper_cons hb hne, List.mem_cons, hc.mem_proper_iff, himm.2 a]
    constructor
    · rintro (rfl | h)
      · exact f.dominates_self roots a
      · exact h.2
    · intro h
      by_cases hab : a = b
      · exact Or.inl hab
      · exact Or.inr ⟨hab, h⟩
  · rw [proper_cons hb hne]
    apply hc.isChain_proper.cons
    intro c hcl
    rw [head?_proper, hl] at hcl
    cases hcl
    exact himm
  · cases i with
    | zero =>
      cases hi
      rw [hb] at h
      cases h
    | succ i =>
      have := hc.shared_index i c hi h
      rw [List.length_cons]
      omega

namespace Exact

variable (ht : t.Exact f roots)
include ht

/-- The way up from a block holds its dominators. -/
theorem chainOf_wayUp (hb : f.Reaches roots b) (w : t.WayUp b l) : t.ChainOf f roots b l := by
  induction w with
  | top h =>
    have hp := ht.placed_top hb h
    exact .root hp.1 hp.2
  | @up b d l h w ih =>
    have hd := ht.reaches_idom h
    rcases ht.placed_up h with ⟨hs, hroot, alone⟩ | ⟨hs, himm⟩
    · have hfree := ht.idom?_root hroot
      cases w with
      | top => exact .shared hs (ht.placed_top hd hfree).2 alone
      | up hd' _ =>
        rw [hfree] at hd'
        cases hd'
    · exact .below hs himm w.head? (ih hd)

/-- Being above is dominance, but for the roots that stand in for dominators of shared blocks. -/
theorem above_iff (hb : f.Reaches roots b) : t.Above a b ↔
    f.Dominates roots a b ∨
      ∃ c, t.isShared c = true ∧ f.Dominates roots c b ∧ t.idom? c = some a := by
  constructor
  · intro h
    induction h with
    | refl => exact Or.inl (f.dominates_self roots a)
    | @up b d hd had ih =>
      rcases ht.placed_up hd with ⟨hs, hroot, _⟩ | ⟨_, himm⟩
      · rw [ht.eq_of_above_root hroot had]
        exact Or.inr ⟨b, hs, f.dominates_self roots b, hd⟩
      · rcases ih (ht.reaches_idom hd) with h | ⟨c, hc, hcd, hca⟩
        · exact Or.inl ((himm.2 a).mp h).2
        · exact Or.inr ⟨c, hc, ((himm.2 c).mp hcd).2, hca⟩
  · rintro (h | ⟨c, _, hcb, hca⟩)
    · exact ht.above_of_dominates hb h
    · have hac : t.Above a c := .up hca .refl
      exact hac.trans (ht.above_of_dominates hb hcb)

end Exact

/-- The chains of dominators that a tree built from an in-range flow lists are complete: they have no
repetitions, follow immediate dominators from the block itself to a root, and hold exactly the
dominators of the block, but for a root at the end that stands in for a missing one. -/
theorem dominators_build (f : Flow) (hf : f.InRange) (roots : List Block) :
    let t := (build f roots).value
    (∀ b, f.Reaches roots b →
      (t.dominators b).Nodup ∧
      (t.dominators b).head? = some b ∧
      (t.dominators b).IsChain (fun c d => t.idom? c = some d) ∧
      (∃ r ∈ f.validRoots roots, (t.dominators b).getLast? = some r ∧ t.idom? r = none) ∧
      (∀ a, a ∈ t.proper (t.dominators b) ↔ f.Dominates roots a b) ∧
      (t.proper (t.dominators b)).IsChain
        (fun c d => ∀ a, f.Dominates roots a d ↔ f.Dominates roots a c ∧ a ≠ c) ∧
      (∀ i c, (t.dominators b)[i]? = some c → t.isShared c = true →
        i + 2 = (t.dominators b).length) ∧
      t.depth? b = some ((t.dominators b).length - 1)) ∧
    (∀ a b, t.dominates a b = true ↔ f.Reaches roots b ∧
      (f.Dominates roots a b ∨
        ∃ c, t.isShared c = true ∧ f.Dominates roots c b ∧ t.idom? c = some a)) ∧
    (∀ b, ¬f.Reaches roots b → t.dominators b = [] ∧ t.depth? b = none) := by
  intro t
  have ht : t.Exact f roots := exact_build hf roots
  refine ⟨fun b hb => ?_, fun a b => ?_, fun b hb => ?_⟩
  · have w := ht.wayUp_dominators hb
    have hc := ht.chainOf_wayUp hb w
    rcases w.getLast? with ⟨r, hr, hfree⟩
    have hmem : r ∈ t.dominators b := List.mem_of_getLast? hr
    have hreach := ht.reaches_above (w.mem_iff.mp hmem) hb
    refine ⟨w.nodup, w.head?, w.isChain, ⟨r, (ht.placed_top hreach hfree).1, hr, hfree⟩,
      hc.mem_proper_iff, ?_, hc.shared_index, if_pos ((ht.contains_iff b).mpr hb)⟩
    apply hc.isChain_proper.imp
    intro c d hdc a
    rw [hdc.2 a]
    exact and_comm
  · rw [ht.dominates_iff_above]
    apply and_congr_right
    intro hb
    exact ht.above_iff hb
  · refine ⟨ht.dominators_of_not_reaches hb, if_neg ?_⟩
    rw [ht.contains_iff]
    exact hb

/-- The chain of a loop that two roots lead into holds no root, but for a stand-in. -/
theorem dominators_crossing :
    Flow.crossing.InRange ∧ Flow.crossing.Reaches Flow.crossingRoots ⟨3⟩ ∧
      let t := (build Flow.crossing Flow.crossingRoots).value
      ⟨3⟩ ∈ t.proper (t.dominators ⟨3⟩) ∧ ⟨0⟩ ∉ t.proper (t.dominators ⟨3⟩) := by
  have h := (dominators_build Flow.crossing Flow.inRange_crossing Flow.crossingRoots).1 ⟨3⟩
    Flow.reaches_crossing_loop
  refine ⟨Flow.inRange_crossing, Flow.reaches_crossing_loop, ?_, ?_⟩
  · exact (h.2.2.2.2.1 ⟨3⟩).mpr (Flow.dominates_self _ _ _)
  · intro hmem
    have hdom := (h.2.2.2.2.1 ⟨0⟩).mp hmem
    have hwalk := (Flow.walk_crossing (r := 1) (by omega)).concat
      (List.mem_singleton_self (⟨3⟩ : Block))
    have := hdom ⟨1⟩ (Flow.mem_crossingRoots (by omega)) _ hwalk
    revert this
    decide

end Tree
end Dominance
