import Dominance.Block

/-!
# Flows

A flow is all that a search reads of a graph: how many blocks it has and where each block leads.
Only finitely many blocks lead anywhere. Nothing else is promised; a block may even lead past the
block count, and `InRange` says that none does.

A flow is what `node_count` and `successors` of a `Successors` graph answer; the roots of a
`Flowgraph` are given beside it.
-/

namespace Dominance

/-- The successors of blocks, seen by searches. Blocks at or past `extent` lead nowhere. -/
structure Flow where
  blockCount : Nat
  successors : Block → List Block
  extent : Nat
  successors_eq_nil : ∀ b, extent ≤ b.index → successors b = []

namespace Flow

/-- The flow of given successor lists; blocks past the lists lead nowhere. -/
def ofLists (blockCount : Nat) (lists : Array (List Block)) : Flow where
  blockCount
  successors b := lists.getD b.index []
  extent := lists.size
  successors_eq_nil b h := by
    rw [Array.getD_eq_getD_getElem?, Array.getElem?_eq_none h, Option.getD_none]

/-- Whether a block is part of the graph. -/
def has (f : Flow) (b : Block) : Bool := b.index < f.blockCount

/-- The edges of a flow, with repetitions, by source. -/
def edges (f : Flow) : List Edge :=
  (List.range f.extent).flatMap fun i => (f.successors ⟨i⟩).map (Edge.mk ⟨i⟩)

/-- Blocks of the graph lead to blocks of the graph only. -/
def InRange (f : Flow) : Prop := ∀ b c, f.has b = true → c ∈ f.successors b → f.has c = true

/-- The roots that are part of the graph, in the order given. -/
def validRoots (f : Flow) (roots : List Block) : List Block := roots.filter f.has

/-- The roots that are not part of the graph, in the order given. -/
def invalidRoots (f : Flow) (roots : List Block) : List Block := roots.filter (!f.has ·)

/-- An edge belongs to a flow exactly if its target is a successor of its source. -/
@[simp] theorem mem_edges {f : Flow} {e : Edge} : e ∈ f.edges ↔ e.target ∈ f.successors e.source := by
  unfold edges
  rw [List.mem_flatMap]
  constructor
  · rintro ⟨i, _, h⟩
    obtain ⟨c, hc, rfl⟩ := List.mem_map.mp h
    exact hc
  · intro h
    refine ⟨e.source.index, List.mem_range.mpr (Nat.lt_of_not_le fun hx => ?_),
      List.mem_map.mpr ⟨e.target, h, rfl⟩⟩
    rw [f.successors_eq_nil _ hx] at h
    exact List.not_mem_nil h

/-- Successor lists below the block count make an in-range flow. -/
theorem inRange_ofLists {blockCount : Nat} {lists : Array (List Block)}
    (h : ∀ l ∈ lists.toList, ∀ c ∈ l, c.index < blockCount) : (ofLists blockCount lists).InRange := by
  intro b c _ hc
  change c ∈ lists.getD b.index [] at hc
  rw [Array.getD_eq_getD_getElem?] at hc
  cases hl : lists[b.index]? with
  | none =>
    rw [hl] at hc
    cases hc
  | some l =>
    rw [hl] at hc
    rw [← Array.getElem?_toList] at hl
    exact decide_eq_true (h l (List.mem_of_getElem? hl) c hc)

end Flow
end Dominance
