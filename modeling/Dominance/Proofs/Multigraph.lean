import Dominance.Multigraph

/-!
# Edges of a multigraph

An edge is accepted only between blocks of the graph, and blocks are never removed. So edges always
join blocks of the graph, and what searches read of a graph is an in-range flow.
-/

namespace Dominance
namespace Multigraph

variable {ν ε : Type} {g h : Multigraph ν ε} {e : Edge} {x : ε}

/-- Every edge joins two blocks of the graph. -/
def Closed (g : Multigraph ν ε) : Prop :=
  ∀ x ∈ g.edges, g.has x.1.source = true ∧ g.has x.1.target = true

/-- An edge is accepted exactly between blocks of the graph. It comes last, and its position is noted
at both of its ends. -/
theorem addEdge_eq_ok_iff : g.addEdge e x = .ok h ↔
    g.has e.source = true ∧ g.has e.target = true ∧ h = { g with
      edges := g.edges.push (e, x)
      outgoing := g.outgoing.modify e.source.index (·.push g.edges.size)
      incoming := g.incoming.modify e.target.index (·.push g.edges.size) } := by
  unfold addEdge
  cases hs : g.has e.source <;> cases ht : g.has e.target <;> simp [eq_comm]

/-- An accepted edge joins blocks of the graph and comes last; no block changes. -/
theorem of_addEdge_eq_ok (he : g.addEdge e x = .ok h) :
    g.has e.source = true ∧ g.has e.target = true ∧ h.nodes = g.nodes ∧
      h.edges = g.edges.push (e, x) := by
  obtain ⟨hs, ht, rfl⟩ := addEdge_eq_ok_iff.mp he
  exact ⟨hs, ht, rfl, rfl⟩

/-- A block is part of a graph exactly if its index is below the number of blocks. -/
theorem has_iff {b : Block} : g.has b = true ↔ b.index < g.blockCount := by simp [has]

/-- The listed blocks are those that are part of the graph. -/
theorem mem_blocks {b : Block} : b ∈ g.blocks ↔ g.has b = true := by
  rw [blocks, has_iff, List.mem_map]
  constructor
  · rintro ⟨i, hi, rfl⟩
    exact List.mem_range.mp hi
  · intro hb
    exact ⟨b.index, List.mem_range.mpr hb, rfl⟩

/-- Blocks of a graph are blocks of every graph with as many or more blocks. -/
theorem has_mono (hle : g.blockCount ≤ h.blockCount) {b : Block} (hb : g.has b = true) :
    h.has b = true := by
  rw [has_iff] at hb ⊢
  omega

/-- A graph is not empty exactly if it has a first block. -/
theorem isEmpty_eq_false_iff : g.isEmpty = false ↔ 0 < g.blockCount := by
  simp [isEmpty, blockCount, Array.size_pos_iff]

/-- A graph without edges has no edge that leaves it. -/
theorem closed_empty : (empty : Multigraph ν ε).Closed := by simp [Closed, empty]

/-- Edges stay where they are when blocks are added. -/
theorem Closed.mono (hg : g.Closed) (hle : g.blockCount ≤ h.blockCount) (he : h.edges = g.edges) :
    h.Closed := by
  intro x hx
  rw [he] at hx
  exact ⟨has_mono hle (hg x hx).1, has_mono hle (hg x hx).2⟩

/-- An accepted edge joins two blocks of the graph. -/
theorem Closed.addEdge (hg : g.Closed) (he : g.addEdge e x = .ok h) : h.Closed := by
  have hacc := of_addEdge_eq_ok he
  have hle : g.blockCount ≤ h.blockCount := Nat.le_of_eq (blockCount_addEdge he).symm
  intro y hy
  rw [hacc.2.2.2, Array.mem_push] at hy
  rcases hy with hy | rfl
  · exact ⟨has_mono hle (hg y hy).1, has_mono hle (hg y hy).2⟩
  · exact ⟨has_mono hle hacc.1, has_mono hle hacc.2.1⟩

/-- Successors are targets of edges. -/
theorem exists_edge_of_mem_successors {b c : Block} (hc : c ∈ g.successors b) :
    ∃ x ∈ g.edges, x.1.target = c := by
  simp only [successors, outgoingEdges, List.mem_map, List.mem_filterMap] at hc
  obtain ⟨x, ⟨i, _, hi⟩, rfl⟩ := hc
  exact ⟨x, Array.mem_of_getElem? hi, rfl⟩

/-- Searches in a graph whose edges join its blocks never leave it. -/
theorem Closed.inRange (hg : g.Closed) : g.flow.InRange := by
  intro b c _ hc
  obtain ⟨x, hx, rfl⟩ := exists_edge_of_mem_successors hc
  exact (hg x hx).2

end Multigraph
end Dominance
