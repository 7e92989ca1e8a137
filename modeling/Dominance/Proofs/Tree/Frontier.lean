import Dominance.Proofs.Tree.Order
import Dominance.Tree.Frontier

/-!
# Dominance frontiers

The frontier of a block consists of the blocks that something below it leads to and that are not
strictly below it themselves. This set satisfies the recurrence by which frontiers are computed from
the leaves up, because a block that is not shared hangs above all of its predecessors.
-/

namespace Dominance

namespace Flow

variable {f : Flow} {roots : List Block} {a b p : Block}

/-- A strict dominator of a block dominates its predecessors. -/
theorem StrictlyDominates.of_successor (h : f.StrictlyDominates roots a b)
    (hp : b ∈ f.successors p) : f.Dominates roots a p := by
  intro r hr q w
  have hmem := h.2 r hr (q ++ [b]) (w.concat hp)
  rw [List.mem_append, List.mem_singleton] at hmem
  exact hmem.resolve_right h.1

end Flow

namespace Tree

/-- Something at or below `x` leads to `y`, and `y` is not strictly below `x`. -/
def InFrontier (f : Flow) (roots : List Block) (t : Tree) (x y : Block) : Prop :=
  ∃ p, f.Reaches roots p ∧ y ∈ f.successors p ∧ t.Above x p ∧ ¬(x ≠ y ∧ t.Above x y)

/-- A multimap has the frontiers of the given blocks and no other entries. -/
structure HasFrontiers (f : Flow) (roots : List Block) (t : Tree) (done : List Block)
    (m : Multimap Block Block) : Prop where
  key_iff : ∀ x, m.containsKey x = true ↔ x ∈ done
  value_iff : ∀ x y, x ∈ done → (m.contains x y = true ↔ t.InFrontier f roots x y)

variable {t : Tree} {f : Flow} {roots : List Block} {b c d p x y : Block}

private theorem contains_foldl_dominated {l : List Block} {m : Multimap Block Block} :
    (l.foldl (fun m b =>
      match t.idom? b with
      | none => m
      | some d => m.insert d b) m).contains d b = true ↔
      m.contains d b = true ∨ (b ∈ l ∧ t.idom? b = some d) := by
  induction l generalizing m with
  | nil => simp
  | cons c l ih =>
    rw [List.foldl_cons, ih, List.mem_cons]
    cases hc : t.idom? c with
    | none => grind
    | some e =>
      rw [Multimap.contains_insert]
      grind

private theorem containsKey_foldl_dominated {l : List Block} {m : Multimap Block Block} :
    (l.foldl (fun m b =>
      match t.idom? b with
      | none => m
      | some d => m.insert d b) m).containsKey d = true ↔
      m.containsKey d = true ∨ ∃ b ∈ l, t.idom? b = some d := by
  induction l generalizing m with
  | nil => simp
  | cons c l ih =>
    rw [List.foldl_cons, ih]
    cases hc : t.idom? c with
    | none => simp [hc]
    | some e =>
      rw [Multimap.containsKey_insert]
      simp only [List.exists_mem_cons_iff, hc, Option.some.injEq]
      grind

/-- Only blocks that something hangs below are dominators. -/
theorem exists_idom_of_containsKey (h : t.dominated.containsKey d = true) :
    ∃ b, t.idom? b = some d := by
  rcases containsKey_foldl_dominated.mp h with h | ⟨b, _, hb⟩
  · rw [Multimap.containsKey_empty] at h
    cases h
  · exact ⟨b, hb⟩

namespace Exact

variable (ht : t.Exact f roots)
include ht

/-- The table of dominated blocks is the inverse of the immediate dominators. -/
theorem contains_dominated : t.dominated.contains d b = true ↔ t.idom? b = some d := by
  apply contains_foldl_dominated.trans
  rw [Multimap.contains_empty]
  constructor
  · rintro (h | h)
    · cases h
    · exact h.2
  · intro h
    rcases ht.exists_position (ht.reaches_of_idom? b d h) with ⟨i, hi⟩
    rw [blockAt?, ← Array.getElem?_toList] at hi
    exact Or.inr ⟨List.mem_of_getElem? hi, h⟩

/-- What strictly holds `y` below it, without being its immediate dominator, is strictly above the
immediate dominator of `y`, and that is above every predecessor of `y`. -/
private theorem exists_between (hxy : t.Above x y) (hne : x ≠ y) (hidom : t.idom? y ≠ some x)
    (hp : f.Reaches roots p) (hyp : y ∈ f.successors p) :
    ∃ z, t.idom? y = some z ∧ t.Above x z ∧ x ≠ z ∧ t.Above z p := by
  cases hxy with
  | refl => exact absurd rfl hne
  | @up _ z hz hxz =>
    have hxz' : x ≠ z := by
      rintro rfl
      exact hidom hz
    rcases ht.placed_up hz with ⟨_, hroot, _⟩ | ⟨_, himm⟩
    · exact absurd (ht.eq_of_above_root hroot hxz) hxz'
    · exact ⟨z, hz, hxz, hxz', ht.above_of_dominates hp (himm.1.of_successor hyp)⟩

/-- What a block leads to and does not immediately dominate is in its frontier. -/
private theorem inFrontier_of_successor (hx : f.Reaches roots x) (hyx : y ∈ f.successors x)
    (hidom : t.idom? y ≠ some x) : t.InFrontier f roots x y := by
  refine ⟨x, hx, hyx, .refl, ?_⟩
  rintro ⟨hne, hxy⟩
  rcases ht.exists_between hxy hne hidom hx hyx with ⟨z, _, hxz, hne', hzx⟩
  exact hne' (ht.above_antisymm hxz hzx)

/-- What is in the frontier of something that hangs below a block, and not immediately dominated by
the block, is in the frontier of the block. -/
private theorem inFrontier_of_child (hc : t.idom? c = some x) (h : t.InFrontier f roots c y)
    (hidom : t.idom? y ≠ some x) : t.InFrontier f roots x y := by
  rcases h with ⟨p, hp, hyp, hcp, hout⟩
  have hxc : t.Above x c := .up hc .refl
  refine ⟨p, hp, hyp, hxc.trans hcp, ?_⟩
  rintro ⟨hne, hxy⟩
  rcases ht.exists_between hxy hne hidom hp hyp with ⟨z, hz, hxz, hne', hzp⟩
  -- Both `c` and `z` are above `p`; since `z` is strictly below `x`, it is not above `c`.
  have hcz : t.Above c z := by
    rcases hcp.total hzp with h | h
    · exact h
    · by_cases hzc : z = c
      · rw [hzc]
        exact .refl
      · exact absurd (ht.above_antisymm hxz (h.of_idom hzc hc)) hne'
  apply hout
  refine ⟨?_, .up hz hcz⟩
  rintro rfl
  exact hidom hc

/-- A block does not immediately dominate what is in its frontier. -/
private theorem idom?_ne_of_inFrontier (h : t.InFrontier f roots x y) : t.idom? y ≠ some x := by
  rcases h with ⟨p, hp, hyp, hxp, hout⟩
  intro hd
  apply hout
  refine ⟨?_, .up hd .refl⟩
  rintro rfl
  exact ht.not_above_idom hd .refl

/-- What is in the frontier of a block is a successor or in the frontier of something that hangs
below the block. -/
private theorem inFrontier_cases (h : t.InFrontier f roots x y) :
    y ∈ f.successors x ∨ ∃ c, t.idom? c = some x ∧ t.InFrontier f roots c y := by
  rcases h with ⟨p, hp, hyp, hxp, hout⟩
  by_cases hpx : x = p
  · rw [hpx]
    exact Or.inl hyp
  · rcases hxp.child hpx with ⟨c, hc, hcp⟩
    refine Or.inr ⟨c, hc, p, hp, hyp, hcp, ?_⟩
    rintro ⟨_, hcy⟩
    have hxc : t.Above x c := .up hc .refl
    by_cases hxy : x = y
    · rw [← hxy] at hcy
      exact ht.not_above_idom hc hcy
    · exact hout ⟨hxy, hxc.trans hcy⟩

/-- Frontiers satisfy their recurrence. -/
theorem inFrontier_iff (hx : f.Reaches roots x) : t.InFrontier f roots x y ↔
    (y ∈ f.successors x ∨ ∃ c, t.idom? c = some x ∧ t.InFrontier f roots c y) ∧
      t.idom? y ≠ some x := by
  constructor
  · intro h
    exact ⟨ht.inFrontier_cases h, ht.idom?_ne_of_inFrontier h⟩
  · rintro ⟨hyx | ⟨c, hc, h⟩, hidom⟩
    · exact ht.inFrontier_of_successor hx hyx hidom
    · exact ht.inFrontier_of_child hc h hidom

/-- What is computed for a block from its successors and the entries of what hangs below it. -/
theorem mem_frontierOf (hx : f.Reaches roots x) {m : Multimap Block Block} :
    y ∈ t.frontierOf t.dominated m x ↔
      (y ∈ f.successors x ∨ ∃ c, t.idom? c = some x ∧ m.contains c y = true) ∧
        t.idom? y ≠ some x := by
  have hown : y ∈ (t.successors x).filter t.contains ↔ y ∈ f.successors x := by
    rw [List.mem_filter, ht.successors_eq x hx]
    constructor
    · exact And.left
    · intro hy
      exact ⟨hy, (ht.contains_iff y).mpr (hx.successor hy)⟩
  have hbelow : y ∈ (t.dominated.values x).flatMap m.values ↔
      ∃ c, t.idom? c = some x ∧ m.contains c y = true := by
    rw [List.mem_flatMap]
    simp only [Multimap.mem_values, ht.contains_dominated]
  unfold frontierOf
  rw [List.mem_filter, List.mem_append, hown, hbelow, bne_iff_ne]

/-- Computing one more frontier. -/
theorem hasFrontiers_step {done : List Block} {m : Multimap Block Block}
    (h : t.HasFrontiers f roots done m) (hx : f.Reaches roots x) (hnew : x ∉ done)
    (hchildren : ∀ c, t.idom? c = some x → c ∈ done) :
    t.HasFrontiers f roots (done ++ [x]) (m.insertMany x (t.frontierOf t.dominated m x)) := by
  refine ⟨fun z => ?_, fun z y hz => ?_⟩
  · rw [Multimap.containsKey_insertMany, h.key_iff, List.mem_append, List.mem_singleton, or_comm,
      eq_comm]
  · rw [Multimap.contains_insertMany]
    by_cases hzx : x = z
    · subst hzx
      have hfree : ¬m.contains x y = true :=
        fun hc => hnew ((h.key_iff x).mp (Multimap.containsKey_of_contains hc))
      rw [ht.mem_frontierOf hx, ht.inFrontier_iff hx]
      have hsame : (∃ c, t.idom? c = some x ∧ m.contains c y = true) ↔
          ∃ c, t.idom? c = some x ∧ t.InFrontier f roots c y :=
        exists_congr fun c => and_congr_right fun hc => h.value_iff c y (hchildren c hc)
      rw [hsame]
      constructor
      · rintro (hc | ⟨_, hc⟩)
        · exact absurd hc hfree
        · exact hc
      · intro hc
        exact Or.inr ⟨rfl, hc⟩
    · rw [List.mem_append, List.mem_singleton] at hz
      rw [← h.value_iff z y (hz.resolve_right (Ne.symm hzx))]
      constructor
      · rintro (hc | ⟨hc, _⟩)
        · exact hc
        · exact absurd hc hzx
      · exact Or.inl

/-- Computing all frontiers that remain, in an order that lists blocks before their immediate
dominators. -/
theorem hasFrontiers_foldl {done rest : List Block} {m : Multimap Block Block}
    (h : t.HasFrontiers f roots done m) (hnodup : (done ++ rest).Nodup)
    (hall : ∀ x, x ∈ done ++ rest ↔ f.Reaches roots x)
    (hsorted : (done ++ rest).Pairwise fun d b => t.idom? b ≠ some d) :
    t.HasFrontiers f roots (done ++ rest)
      (rest.foldl (fun m x => m.insertMany x (t.frontierOf t.dominated m x)) m) := by
  induction rest generalizing done m with
  | nil =>
    rw [List.append_nil]
    exact h
  | cons x rest ih =>
    have hx : f.Reaches roots x := (hall x).mp (by simp)
    have hnew : x ∉ done := fun hmem =>
      (List.nodup_append.mp hnodup).2.2 x hmem x List.mem_cons_self rfl
    have hchildren : ∀ c, t.idom? c = some x → c ∈ done := by
      intro c hc
      have hmem := (hall c).mpr (ht.reaches_of_idom? c x hc)
      rw [List.mem_append, List.mem_cons] at hmem
      rcases hmem with hmem | rfl | hmem
      · exact hmem
      · exact absurd .refl (ht.not_above_idom hc)
      · have hrest := (List.pairwise_append.mp hsorted).2.1
        exact absurd hc ((List.pairwise_cons.mp hrest).1 c hmem)
    rw [List.append_cons] at hnodup hall hsorted ⊢
    exact ih (ht.hasFrontiers_step h hx hnew hchildren) hnodup hall hsorted

/-- The order from the leaves up holds the reached blocks. -/
theorem mem_reverseTopological : b ∈ t.reverseTopological ↔ f.Reaches roots b := by
  rw [reverseTopological, List.mem_reverse, ht.mem_topological]

/-- The computed table has all frontiers. -/
theorem hasFrontiers : t.HasFrontiers f roots t.reverseTopological t.frontiers := by
  have hempty : t.HasFrontiers f roots [] .empty := by
    refine ⟨fun x => ?_, fun x _ hx => absurd hx List.not_mem_nil⟩
    rw [Multimap.containsKey_empty]
    simp
  apply ht.hasFrontiers_foldl hempty
  · exact List.nodup_reverse.mpr ht.nodup_topological
  · intro x
    exact ht.mem_reverseTopological
  · exact List.pairwise_reverse.mpr ht.pairwise_topological

end Exact

/-- The frontiers of a tree built from an in-range flow: every reached block has one and no other
block does, and the frontier of `x` holds the reached blocks that something dominated by `x` leads
to and that `x` does not strictly dominate. -/
theorem frontiers_build (f : Flow) (hf : f.InRange) (roots : List Block) :
    let t := (build f roots).value
    (∀ x, f.Reaches roots x → ∃ ys, t.frontiers.get? x = some ys ∧
      ∀ y, y ∈ ys ↔ f.Reaches roots y ∧ ∃ p, f.Reaches roots p ∧ y ∈ f.successors p ∧
        t.dominates x p = true ∧ t.strictlyDominates x y = false) ∧
    (∀ x, ¬f.Reaches roots x → t.frontiers.get? x = none) := by
  intro t
  have ht : t.Exact f roots := exact_build hf roots
  have hfr := ht.hasFrontiers
  constructor
  · intro x hx
    have hdone : x ∈ t.reverseTopological := ht.mem_reverseTopological.mpr hx
    refine ⟨t.frontiers.values x, Multimap.get?_of_containsKey ((hfr.key_iff x).mpr hdone), ?_⟩
    intro y
    rw [Multimap.mem_values, hfr.value_iff x y hdone]
    have hstrict : f.Reaches roots y →
        (t.strictlyDominates x y = false ↔ ¬(x ≠ y ∧ t.Above x y)) := by
      intro hy
      rw [← Bool.not_eq_true, strictlyDominates, Bool.and_eq_true, bne_iff_ne,
        ht.dominates_iff_above]
      simp only [hy, true_and]
    constructor
    · rintro ⟨p, hp, hyp, hxp, hout⟩
      have hy := hp.successor hyp
      exact ⟨hy, p, hp, hyp, ht.dominates_iff_above.mpr ⟨hp, hxp⟩, (hstrict hy).mpr hout⟩
    · rintro ⟨hy, p, hp, hyp, hxp, hout⟩
      exact ⟨p, hp, hyp, (ht.dominates_iff_above.mp hxp).2, (hstrict hy).mp hout⟩
  · intro x hx
    apply Multimap.get?_of_not_containsKey
    rw [hfr.key_iff, ht.mem_reverseTopological]
    exact hx

/-- The block at which the loop is entered dominates the rest of the loop, which leads back to it: it
is the one block of its own frontier, and the rest of the loop is left out. A block that does not exist
has no frontier, even if it is given as a root. -/
theorem frontiers_crossing :
    let t := (build Flow.crossing Flow.crossingRoots).value
    Flow.crossing.InRange ∧ Flow.crossing.Reaches Flow.crossingRoots ⟨2⟩ ∧
      t.frontiers.get? ⟨2⟩ = some [⟨2⟩] ∧
      (∃ p, Flow.crossing.Reaches Flow.crossingRoots p ∧ ⟨2⟩ ∈ Flow.crossing.successors p ∧
        t.dominates ⟨2⟩ p = true ∧ t.strictlyDominates ⟨2⟩ ⟨2⟩ = false) ∧
      Flow.crossing.Reaches Flow.crossingRoots ⟨3⟩ ∧
      (¬∃ p, Flow.crossing.Reaches Flow.crossingRoots p ∧ ⟨3⟩ ∈ Flow.crossing.successors p ∧
        t.dominates ⟨2⟩ p = true ∧ t.strictlyDominates ⟨2⟩ ⟨3⟩ = false) ∧
      t.frontiers.get? ⟨9⟩ = none := by
  intro t
  obtain ⟨hentries, habsent⟩ :=
    frontiers_build Flow.crossing Flow.inRange_crossing Flow.crossingRoots
  have hentry : t.frontiers.get? ⟨2⟩ = some [⟨2⟩] := by decide +kernel
  obtain ⟨ys, hys, hmem⟩ := hentries ⟨2⟩ Flow.reaches_crossing
  obtain rfl : ys = [⟨2⟩] := Option.some.inj (hys.symm.trans hentry)
  refine ⟨Flow.inRange_crossing, Flow.reaches_crossing, hentry,
    ((hmem ⟨2⟩).mp (List.mem_singleton_self _)).2, Flow.reaches_crossing_loop, ?_,
    habsent ⟨9⟩ fun h9 => ?_⟩
  · intro h3
    have hin : (⟨3⟩ : Block) ∈ [(⟨2⟩ : Block)] := (hmem ⟨3⟩).mpr ⟨Flow.reaches_crossing_loop, h3⟩
    revert hin
    decide
  · have := h9.has Flow.inRange_crossing
    revert this
    decide

end Tree
end Dominance
