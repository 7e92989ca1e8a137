import Dominance.Proofs.Tree.Frontier

/-!
# Immediate dominators

The immediate dominators of a built tree are those of the flow. Only reached blocks occur in the
tables of the tree, its own and those derived from it.
-/

namespace Dominance
namespace Tree

/-- A block occurs in a table, as a key or as a value. -/
inductive Mentions (t : Tree) (b : Block) : Prop where
  | root (h : b ∈ t.roots)
  | visit (h : b ∈ t.order.toList)
  | position (h : b ∈ t.position)
  | child (p : Block) (h : t.parent? b = some p)
  | parent (c : Block) (h : t.parent? c = some b)
  | semidominated (s : Block) (h : t.semidominator? b = some s)
  | semidominator (c : Block) (h : t.semidominator? c = some b)
  | shared (h : t.isShared b = true)
  | source (c : Block) (h : c ∈ t.successors b)
  | target (l : List Block) (hl : l ∈ t.targets.toList) (h : b ∈ l)
  | hanging (h : b ∈ t.idom)
  | idom (c : Block) (h : t.idom? c = some b)
  | dominator (h : t.dominated.containsKey b = true)
  | dominated (d : Block) (h : t.dominated.contains d b = true)
  | listed (h : b ∈ t.topological)
  | frontierOf (h : t.frontiers.containsKey b = true)
  | frontier (x : Block) (h : t.frontiers.contains x b = true)

variable {t : Tree} {f : Flow} {roots : List Block} {b c d e : Block}

namespace Exact

variable (ht : t.Exact f roots)
include ht

private theorem reaches_of_position? {i : Nat} (h : t.position? b = some i) : f.Reaches roots b :=
  ht.reaches_of_blockAt? ((ht.position?_iff b i).mp h)

/-- A table by position, read for one block and giving another, relates reached blocks. -/
theorem reaches_of_lookup {g : Nat → Option Nat}
    (h : ((t.position? b).bind fun i => (g i).bind t.blockAt?) = some c) :
    f.Reaches roots b ∧ f.Reaches roots c := by
  rcases Option.bind_eq_some_iff.mp h with ⟨i, hi, h⟩
  rcases Option.bind_eq_some_iff.mp h with ⟨j, _, hj⟩
  exact ⟨ht.reaches_of_position? hi, ht.reaches_of_blockAt? hj⟩

/-- The lists of targets are the successors of reached blocks. -/
theorem reaches_of_target {l : List Block} (hl : l ∈ t.targets.toList) (hb : b ∈ l) :
    f.Reaches roots b := by
  rcases List.getElem?_of_mem hl with ⟨i, hi⟩
  rw [Array.getElem?_toList] at hi
  have hsize : i < t.size := by
    rw [← ht.targets_size]
    exact (Array.getElem?_eq_some_iff.mp hi).1
  have hc : t.blockAt? i = some t.order[i] := Array.getElem?_eq_getElem hsize
  have hreach := ht.reaches_of_blockAt? hc
  apply hreach.successor
  rw [← ht.successors_eq _ hreach]
  unfold successors
  rw [(ht.position?_iff _ i).mpr hc]
  simp only [Array.getD_eq_getD_getElem?, hi]
  exact hb

/-- Only reached blocks occur in tables. -/
theorem reaches_of_mentions (h : t.Mentions b) : f.Reaches roots b := by
  cases h with
  | root h => exact f.reaches_of_mem ((ht.mem_roots_iff b).mp h)
  | visit h => exact ht.mem_topological.mp (ht.perm_topological.mem_iff.mpr h)
  | position h => exact (ht.contains_iff b).mp (Std.ExtTreeMap.contains_iff_mem.mpr h)
  | child p h => exact (ht.reaches_of_lookup (g := fun i => t.parent.getD i none) h).1
  | parent c h => exact (ht.reaches_of_lookup (g := fun i => t.parent.getD i none) h).2
  | semidominated s h => exact (ht.reaches_of_lookup (g := fun i => t.semi[i]?) h).1
  | semidominator c h => exact (ht.reaches_of_lookup (g := fun i => t.semi[i]?) h).2
  | shared h => exact ht.reaches_of_isShared h
  | source c h =>
    unfold successors at h
    split at h
    · cases h
    · next i hi => exact ht.reaches_of_position? hi
  | target l hl h => exact ht.reaches_of_target hl h
  | hanging h =>
    rw [Std.ExtTreeMap.mem_iff_isSome_getElem?, Option.isSome_iff_exists] at h
    rcases h with ⟨d, hd⟩
    exact ht.reaches_of_idom? b d hd
  | idom c h => exact ht.reaches_idom h
  | dominator h =>
    rcases exists_idom_of_containsKey h with ⟨c, hc⟩
    exact ht.reaches_idom hc
  | dominated d h => exact ht.reaches_of_idom? b d (ht.contains_dominated.mp h)
  | listed h => exact ht.mem_topological.mp h
  | frontierOf h => exact ht.mem_reverseTopological.mp ((ht.hasFrontiers.key_iff b).mp h)
  | frontier x h =>
    have hx := (ht.hasFrontiers.key_iff x).mp (Multimap.containsKey_of_contains h)
    rcases (ht.hasFrontiers.value_iff x b hx).mp h with ⟨p, hp, hpb, _, _⟩
    exact hp.successor hpb

/-- A reached block has at most one immediate dominator. -/
theorem immediatelyDominates_unique (hb : f.Reaches roots b)
    (hd : f.ImmediatelyDominates roots d b) (he : f.ImmediatelyDominates roots e b) : e = d := by
  have hed := (hd.2 e).mpr he.1
  have hde := (he.2 d).mpr hd.1
  exact ht.above_antisymm (ht.above_of_dominates (hd.1.2.reaches hb) hed)
    (ht.above_of_dominates (he.1.2.reaches hb) hde)

/-- A reached block hangs nowhere exactly if it is a root. -/
theorem idom?_eq_none_iff (hb : f.Reaches roots b) (hf : f.InRange) :
    t.idom? b = none ↔ b ∈ roots := by
  constructor
  · intro h
    exact (List.mem_filter.mp (ht.placed_top hb h).1).1
  · intro hr
    exact ht.idom?_root (Flow.mem_validRoots_of_reaches hf hb hr)

/-- A block with a strict dominator hangs below its immediate dominator. -/
theorem idom?_of_dominated (hb : f.Reaches roots b) (hr : b ∉ roots)
    (ha : ∃ a, f.StrictlyDominates roots a b) :
    t.isShared b = false ∧ ∃ d, t.idom? b = some d ∧ f.ImmediatelyDominates roots d b := by
  cases ht.placed b hb with
  | root mem _ _ => exact absurd (List.mem_filter.mp mem).1 hr
  | shared r _ _ _ _ _ alone =>
    rcases ha with ⟨a, hne, hab⟩
    exact absurd (alone a hab) hne
  | below d _ idom plain nearest => exact ⟨plain, d, idom, nearest⟩

/-- A block without strict dominators that is no root hangs below the head of its depth-first
tree. -/
theorem idom?_of_alone (hb : f.Reaches roots b) (hr : b ∉ roots)
    (alone : ∀ a, f.Dominates roots a b → a = b) :
    t.isShared b = true ∧ ∃ r ∈ f.validRoots roots, t.idom? b = some r ∧ t.HeadOf r b := by
  cases ht.placed b hb with
  | root mem _ _ => exact absurd (List.mem_filter.mp mem).1 hr
  | shared r _ mem head idom shared _ => exact ⟨shared, r, mem, idom, head⟩
  | below d _ _ _ nearest => exact absurd (alone d nearest.1.2) nearest.1.1

end Exact

/-- The immediate dominators of a tree built from an in-range flow are exact. Roots have none. A
block that has a strict dominator is not shared and is given its only immediate dominator. A block
that has none is shared and is given the root at the head of its depth-first tree. Blocks that are
not reached occur nowhere. -/
theorem idom_build (f : Flow) (hf : f.InRange) (roots : List Block) :
    let t := (build f roots).value
    (roots ≠ [] → (ofRoots f roots).value = .ok t) ∧
    (∀ b, f.Reaches roots b →
      (t.idom? b = none ↔ b ∈ roots) ∧
      (b ∉ roots → (∃ a, f.StrictlyDominates roots a b) →
        t.isShared b = false ∧ ∃ d, t.idom? b = some d ∧ f.ImmediatelyDominates roots d b ∧
          ∀ e, f.ImmediatelyDominates roots e b → e = d) ∧
      (b ∉ roots → (∀ a, f.Dominates roots a b → a = b) →
        t.isShared b = true ∧ ∃ r ∈ f.validRoots roots, t.idom? b = some r ∧ t.HeadOf r b)) ∧
    (∀ b, ¬f.Reaches roots b → ¬t.Mentions b) := by
  intro t
  have ht : t.Exact f roots := exact_build hf roots
  refine ⟨fun hne => ?_, fun b hb => ⟨ht.idom?_eq_none_iff hb hf, fun hr ha => ?_, ?_⟩, ?_⟩
  · unfold ofRoots
    rw [if_neg (by rwa [List.isEmpty_iff])]
    rfl
  · rcases ht.idom?_of_dominated hb hr ha with ⟨hs, d, hd, himm⟩
    exact ⟨hs, d, hd, himm, fun e he => ht.immediatelyDominates_unique hb himm he⟩
  · exact ht.idom?_of_alone hb
  · intro b hb h
    exact hb (ht.reaches_of_mentions h)

/-- The block at which two roots meet is shared and hangs below one of them. It is the immediate dominator
of the block after it, and roots have none. -/
theorem idom_crossing :
    let t := (build Flow.crossing Flow.crossingRoots).value
    Flow.crossing.InRange ∧ Flow.crossing.Reaches Flow.crossingRoots ⟨2⟩ ∧
      t.isShared ⟨2⟩ = true ∧
      (∃ r ∈ Flow.crossing.validRoots Flow.crossingRoots, t.idom? ⟨2⟩ = some r ∧ t.HeadOf r ⟨2⟩) ∧
      t.isShared ⟨3⟩ = false ∧ t.idom? ⟨3⟩ = some ⟨2⟩ ∧
      Flow.crossing.ImmediatelyDominates Flow.crossingRoots ⟨2⟩ ⟨3⟩ ∧ t.idom? ⟨0⟩ = none := by
  intro t
  obtain ⟨_, hreached, _⟩ := idom_build Flow.crossing Flow.inRange_crossing Flow.crossingRoots
  have hentry : Flow.crossing.Reaches Flow.crossingRoots ⟨0⟩ :=
    Flow.reaches_of_mem (Flow.mem_crossingRoots (by omega))
  obtain ⟨_, _, hmeet⟩ := hreached ⟨2⟩ Flow.reaches_crossing
  obtain ⟨_, hafter, halone⟩ := hreached ⟨3⟩ Flow.reaches_crossing_loop
  have hnot : t.isShared ⟨3⟩ = false := by decide +kernel
  have hdominated : ∃ a, Flow.crossing.StrictlyDominates Flow.crossingRoots a ⟨3⟩ := by
    -- A block that is dominated by itself only would be shared.
    apply Classical.byContradiction
    intro hnone
    have hshared := (halone (by decide) fun a ha =>
      Classical.byContradiction fun hne => hnone ⟨a, hne, ha⟩).1
    exact absurd hshared (Bool.eq_false_iff.mp hnot)
  have hbelow : t.idom? ⟨3⟩ = some ⟨2⟩ := by decide +kernel
  obtain ⟨_, d, hd, himmediate, _⟩ := hafter (by decide) hdominated
  obtain rfl : d = ⟨2⟩ := Option.some.inj (hd.symm.trans hbelow)
  obtain ⟨hshared, hhead⟩ := hmeet (by decide) fun _ => Flow.eq_of_dominates_crossing
  exact ⟨Flow.inRange_crossing, Flow.reaches_crossing, hshared, hhead, hnot, hbelow, himmediate,
    (hreached ⟨0⟩ hentry).1.mpr (by decide)⟩

end Tree
end Dominance
