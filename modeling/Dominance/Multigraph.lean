import Dominance.Error
import Dominance.Flow

/-!
# Directed multigraphs

Blocks and edges carry data. Blocks are numbered in the order they are added; edges keep the order
they are added in, and parallel edges and loops are allowed. Each block knows the positions of the
edges that leave and enter it, so neighbours are found without looking at the other edges.

The graph is a `DirectedGraph`: `addBlock` is `add_node`, `addEdge` is `add_edge`, and `setData`
writes through `node_mut`. Degrees, `entry_nodes` and `exit_nodes` are read from the same tables.
-/

namespace Dominance

/-- A directed multigraph with data on blocks and edges. -/
structure Multigraph (ν ε : Type) where
  nodes : Array ν
  edges : Array (Edge × ε)
  /-- For each block, the positions in `edges` of the edges that leave it. -/
  outgoing : Array (Array Nat)
  /-- For each block, the positions in `edges` of the edges that enter it. -/
  incoming : Array (Array Nat)

namespace Multigraph

variable {ν ε : Type}

/-- The graph without blocks. -/
def empty : Multigraph ν ε := ⟨#[], #[], #[], #[]⟩

instance : Inhabited (Multigraph ν ε) := ⟨empty⟩

/-- The number of blocks. -/
def blockCount (g : Multigraph ν ε) : Nat := g.nodes.size

/-- The number of edges. -/
def edgeCount (g : Multigraph ν ε) : Nat := g.edges.size

/-- Whether there is no block. -/
def isEmpty (g : Multigraph ν ε) : Bool := g.nodes.isEmpty

/-- Whether a block is part of the graph. -/
def has (g : Multigraph ν ε) (b : Block) : Bool := b.index < g.blockCount

/-- All blocks in ascending order. -/
def blocks (g : Multigraph ν ε) : List Block := (List.range g.blockCount).map Block.mk

/-- The block that the next addition names. -/
def nextBlock (g : Multigraph ν ε) : Block := ⟨g.blockCount⟩

/-- The data of a block. -/
def data? (g : Multigraph ν ε) (b : Block) : Option ν := g.nodes[b.index]?

/-- Replace the data of a block; a missing block is left missing. -/
def setData (g : Multigraph ν ε) (b : Block) (x : ν) : Multigraph ν ε :=
  { g with nodes := g.nodes.setIfInBounds b.index x }

/-- Add a block without edges. It is named `nextBlock`. -/
def addBlock (g : Multigraph ν ε) (x : ν) : Multigraph ν ε :=
  { g with
    nodes := g.nodes.push x
    outgoing := g.outgoing.push #[]
    incoming := g.incoming.push #[] }

/-- Add an edge between blocks of the graph. A missing source is reported before a missing target. -/
def addEdge (g : Multigraph ν ε) (e : Edge) (x : ε) : Except Error (Multigraph ν ε) :=
  if !g.has e.source then .error (.invalidBlock e.source)
  else if !g.has e.target then .error (.invalidBlock e.target)
  else
    let position := g.edges.size
    .ok { g with
      edges := g.edges.push (e, x)
      outgoing := g.outgoing.modify e.source.index (·.push position)
      incoming := g.incoming.modify e.target.index (·.push position) }

/-- The edges that leave a block, oldest first. -/
def outgoingEdges (g : Multigraph ν ε) (b : Block) : List (Edge × ε) :=
  (g.outgoing.getD b.index #[]).toList.filterMap (g.edges[·]?)

/-- The edges that enter a block, oldest first. -/
def incomingEdges (g : Multigraph ν ε) (b : Block) : List (Edge × ε) :=
  (g.incoming.getD b.index #[]).toList.filterMap (g.edges[·]?)

/-- Where the edges of a block lead, oldest first and with repetitions. -/
def successors (g : Multigraph ν ε) (b : Block) : List Block :=
  (g.outgoingEdges b).map (·.1.target)

/-- Where the edges into a block come from, oldest first and with repetitions. -/
def predecessors (g : Multigraph ν ε) (b : Block) : List Block :=
  (g.incomingEdges b).map (·.1.source)

/-- The number of edges that leave a block. -/
def outDegree (g : Multigraph ν ε) (b : Block) : Nat := (g.outgoing.getD b.index #[]).size

/-- The number of edges that enter a block. -/
def inDegree (g : Multigraph ν ε) (b : Block) : Nat := (g.incoming.getD b.index #[]).size

/-- The blocks that no edge enters, ascending. -/
def entryBlocks (g : Multigraph ν ε) : List Block := g.blocks.filter (g.inDegree · == 0)

/-- The blocks that no edge leaves, ascending. -/
def exitBlocks (g : Multigraph ν ε) : List Block := g.blocks.filter (g.outDegree · == 0)

/-- What searches read of a graph. -/
def flow (g : Multigraph ν ε) : Flow where
  blockCount := g.blockCount
  successors := g.successors
  extent := g.outgoing.size
  successors_eq_nil b h := by
    simp [successors, outgoingEdges, Array.getD_eq_getD_getElem?, Array.getElem?_eq_none h]

/-- A graph grows by one with each block that is added. -/
@[simp] theorem blockCount_addBlock (g : Multigraph ν ε) (x : ν) :
    (g.addBlock x).blockCount = g.blockCount + 1 := by
  simp [blockCount, addBlock]

/-- New data makes no new block. -/
@[simp] theorem blockCount_setData (g : Multigraph ν ε) (b : Block) (x : ν) :
    (g.setData b x).blockCount = g.blockCount := by
  simp [blockCount, setData]

/-- New data does not make a graph empty or fill it. -/
@[simp] theorem isEmpty_setData (g : Multigraph ν ε) (b : Block) (x : ν) :
    (g.setData b x).isEmpty = g.isEmpty := by
  simp [isEmpty, setData, Array.isEmpty]

/-- Searches do not read the data of blocks. -/
@[simp] theorem flow_setData (g : Multigraph ν ε) (b : Block) (x : ν) :
    (g.setData b x).flow = g.flow := by
  unfold flow
  congr 1
  exact blockCount_setData g b x

/-- Adding an edge adds no block. -/
theorem blockCount_addEdge {g h : Multigraph ν ε} {e : Edge} {x : ε}
    (he : g.addEdge e x = .ok h) : h.blockCount = g.blockCount := by
  unfold addEdge at he
  split at he
  · cases he
  · split at he
    · cases he
    · cases he
      rfl

end Multigraph
end Dominance
