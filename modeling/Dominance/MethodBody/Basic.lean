import Dominance.EdgeKind
import Dominance.Multigraph
import Dominance.Tree.Build
import Dominance.Tree.Frontier

/-!
# Method bodies

A method body is a control-flow graph: blocks joined by edges of some kind, the first block being the
entry, and blocks at which exception handlers begin. Entry and handlers are its roots. The dominator
tree is built when it is first asked for and kept until blocks, edges or handlers are added. Asking
for something gives the answer together with the method body afterwards.

A method body is a `ControlFlowGraph`: `addBlock` is `add_block`, `addEdge` is `add_edge`,
`addHandler` is `add_exception_handler`, `setData` writes through `block_mut`, `frontiers` is
`dominance_frontiers`, and `unreachable` is `unreachable_blocks`.
-/

namespace Dominance

/-- A control-flow graph with exception handlers and, perhaps, its dominator tree. -/
structure MethodBody (β : Type) where
  graph : Multigraph β EdgeKind
  /-- The blocks at which exception handlers begin, in the order of registration. -/
  handlers : List Block
  /-- The tree of the current graph and handlers, if it has been asked for. -/
  cache : Option Tree

namespace MethodBody

variable {α β : Type}

/-- The method body without blocks. -/
def empty : MethodBody β := ⟨.empty, [], none⟩

instance : Inhabited (MethodBody β) := ⟨empty⟩

/-- The number of blocks. -/
def blockCount (m : MethodBody β) : Nat := m.graph.blockCount

/-- The entry is the first block. -/
def entry? (m : MethodBody β) : Option Block := if m.graph.isEmpty then none else some ⟨0⟩

/-- The entry and the handlers. -/
def roots (m : MethodBody β) : List Block := m.entry?.toList ++ m.handlers

/-- What searches read of a method body. -/
def flow (m : MethodBody β) : Flow := m.graph.flow

/-- Add a block, named by the `nextBlock` of the graph. -/
def addBlock (m : MethodBody β) (x : β) : MethodBody β :=
  { m with graph := m.graph.addBlock x, cache := none }

/-- Add an edge between blocks of the body. -/
def addEdge (m : MethodBody β) (e : Edge) (kind : EdgeKind) : Except Error (MethodBody β) :=
  match m.graph.addEdge e kind with
  | .error r => .error r
  | .ok g => .ok { m with graph := g, cache := none }

/-- Register a handler that begins at a block of the body. A block that is a root already stays as it
is. This is `add_exception_handler`. -/
def addHandler (m : MethodBody β) (b : Block) : Logged (Except Error (MethodBody β)) :=
  if !m.graph.has b then pure (.error (.invalidBlock b))
  else if m.roots.contains b then do
    Logged.record [.alreadyRoot b]
    pure (.ok m)
  else pure (.ok { m with handlers := m.handlers ++ [b], cache := none })

/-- Replace the data of a block. Data does not matter for dominance, so the tree is kept. -/
def setData (m : MethodBody β) (b : Block) (x : β) : MethodBody β :=
  { m with graph := m.graph.setData b x }

/-- The dominator tree: the kept one, or else a new one, which is kept from now on. -/
def dominators (m : MethodBody β) : Logged (Except Error Tree × MethodBody β) :=
  match m.cache with
  | some t => pure (.ok t, m)
  | none =>
    if m.graph.isEmpty then pure (.error .emptyBody, m)
    else do
      match ← Tree.ofRoots m.flow m.roots with
      | .error e => pure (.error e, m)
      | .ok t => pure (.ok t, { m with cache := some t })

/-- Ask something of the dominator tree. -/
def ask (m : MethodBody β) (question : Tree → Logged α) :
    Logged (Except Error α × MethodBody β) := do
  match ← m.dominators with
  | (.error e, m) => pure (.error e, m)
  | (.ok t, m) => do
    let a ← question t
    pure (.ok a, m)

/-- The dominance frontiers of all reachable blocks. -/
def frontiers (m : MethodBody β) : Logged (Except Error (Multimap Block Block) × MethodBody β) :=
  m.ask fun t => pure t.frontiers

/-- The blocks that a tree does not reach, ascending. -/
def deadBlocks (m : MethodBody β) (t : Tree) : List Block := m.graph.blocks.filter (!t.contains ·)

/-- The blocks that neither the entry nor a handler reaches, ascending. This is `unreachable_blocks`.
-/
def unreachable (m : MethodBody β) : Logged (Except Error (List Block) × MethodBody β) :=
  m.ask fun t => do
    let dead := m.deadBlocks t
    if dead.isEmpty then pure dead
    else do
      Logged.record [.unreachable dead.length m.blockCount]
      pure dead

/-- A body grows by one with each block that is added. -/
@[simp] theorem blockCount_addBlock (m : MethodBody β) (x : β) :
    (m.addBlock x).blockCount = m.blockCount + 1 :=
  Multigraph.blockCount_addBlock m.graph x

/-- A body without blocks has no entry. -/
theorem entry?_eq_none_iff (m : MethodBody β) : m.entry? = none ↔ m.graph.isEmpty = true := by
  unfold entry?
  split
  · next h => simp [h]
  · next h => simp [h]

end MethodBody
end Dominance
