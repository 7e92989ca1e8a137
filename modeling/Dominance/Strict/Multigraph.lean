import Dominance.Multigraph
import Dominance.Strict.Sweep
import Dominance.Strict.Writes

/-!
# Strict edits and look-ups

An edge is written to three tables, one after the other, and must find its rows present. A look-up has
no result if one of the stored positions is not that of an edge.

The writes are those of `add_edge` of a `DirectedGraph`.
-/

namespace Dominance
namespace Strict

variable {ν ε : Type}

/-- Put a position at the end of a present row of a table. -/
def file (table : Array (Array Nat)) (i position : Nat) : Option (Array (Array Nat)) := do
  let row ← table[i]?
  write table i (row.push position)

/-- Add an edge between blocks of a graph. -/
def addEdge (e : Edge) (x : ε) : Writes (Multigraph ν ε) Unit := do
  unless (← get).has e.source do throw (.invalidBlock e.source)
  unless (← get).has e.target do throw (.invalidBlock e.target)
  let position := (← get).edges.size
  modify fun g => { g with edges := g.edges.push (e, x) }
  let outgoing ← file (← get).outgoing e.source.index position
  modify fun g => { g with outgoing }
  let incoming ← file (← get).incoming e.target.index position
  modify fun g => { g with incoming }

/-- The edges at given positions. -/
def edgesAt (g : Multigraph ν ε) (positions : Array Nat) : Option (List (Edge × ε)) :=
  positions.toList.mapM (g.edges[·]?)

/-- The edges that leave a block, oldest first. -/
def outgoingEdges (g : Multigraph ν ε) (b : Block) : Option (List (Edge × ε)) :=
  edgesAt g (g.outgoing.getD b.index #[])

/-- The edges that enter a block, oldest first. -/
def incomingEdges (g : Multigraph ν ε) (b : Block) : Option (List (Edge × ε)) :=
  edgesAt g (g.incoming.getD b.index #[])

end Strict
end Dominance
