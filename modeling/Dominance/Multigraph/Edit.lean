import Dominance.Multigraph

/-!
# Edits of a multigraph

A graph is made by edits: blocks are added, their data is replaced, and edges are added. An edge that is
refused leaves the graph as it is. A run performs edits one after the other and collects their replies,
which tell which edges have been added.

The edits are the calls `add_node`, `node_mut` and `add_edge` of a `DirectedGraph`.
-/

namespace Dominance

/-- The outcome of an addition, and what it leaves: a refused one leaves the value as it was. -/
def leave {σ : Type} (s : σ) : Except Error σ → Except Error Unit × σ
  | .error r => (.error r, s)
  | .ok t => (.ok (), t)

namespace Multigraph

variable {ν ε : Type}

/-- A change of a multigraph. -/
inductive Edit (ν ε : Type) where
  | addBlock (data : ν)
  | setData (block : Block) (data : ν)
  | addEdge (edge : Edge) (data : ε)
deriving DecidableEq

namespace Edit

/-- What an edit replies. -/
inductive Reply where
  /-- The name of a new block. -/
  | added (block : Block)
  /-- Whether a block was there to be written to. -/
  | written (present : Bool)
  /-- Whether an edge was accepted. -/
  | outcome (result : Except Error Unit)

/-- Perform an edit. -/
def apply (g : Multigraph ν ε) : Edit ν ε → Reply × Multigraph ν ε
  | addBlock x => (.added g.nextBlock, g.addBlock x)
  | setData b x => (.written (g.has b), g.setData b x)
  | addEdge e x =>
    let result := leave g (g.addEdge e x)
    (.outcome result.1, result.2)

/-- Perform edits one after the other. -/
def run (g : Multigraph ν ε) : List (Edit ν ε) → List Reply × Multigraph ν ε
  | [] => ([], g)
  | edit :: edits =>
    let first := apply g edit
    let others := run first.2 edits
    (first.1 :: others.1, others.2)

/-- The edge that an edit has added, going by its reply. -/
def added? : Edit ν ε → Reply → Option (Edge × ε)
  | .addEdge e x, .outcome (.ok ()) => some (e, x)
  | _, _ => none

/-- The edges that edits have added, going by their replies, oldest first. -/
def added (edits : List (Edit ν ε)) (replies : List Reply) : List (Edge × ε) :=
  (List.zipWith added? edits replies).filterMap id

end Edit
end Multigraph
end Dominance
