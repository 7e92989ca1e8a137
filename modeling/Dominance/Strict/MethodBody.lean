import Dominance.MethodBody.Basic
import Dominance.Strict.Multigraph

/-!
# Strict changes of method bodies

A change of a method body that may be refused consists of checks and of writes to the graph, the handlers
and the kept tree. They are made in this order, and a refusal undoes none of them.

The writes are those of `add_edge` and `add_exception_handler` of a `ControlFlowGraph`.
-/

namespace Dominance
namespace Strict
namespace Body

variable {α β : Type}

/-- Writes to the graph of a method body. -/
def onGraph (w : Writes (Multigraph β EdgeKind) α) : Writes (MethodBody β) α :=
  ExceptT.mk fun m => (w.perform m.graph).map fun r => (r.1, { m with graph := r.2 })

/-- Drop the kept tree. -/
def dropTree : Writes (MethodBody β) Unit := modify fun m => { m with cache := none }

/-- Add an edge between blocks of the body, and then drop the tree. -/
def addEdge (e : Edge) (kind : EdgeKind) : Writes (MethodBody β) Unit := do
  onGraph (Strict.addEdge e kind)
  dropTree

/-- Register a handler that begins at a block of the body, unless that is a root already. -/
def addHandler (b : Block) : Writes (MethodBody β) Unit := do
  unless (← get).graph.has b do throw (.invalidBlock b)
  unless (← get).roots.contains b do
    modify fun m => { m with handlers := m.handlers ++ [b] }
    dropTree

/-- Writes to the graph of a body leave the rest of it. -/
@[simp] theorem perform_onGraph (w : Writes (Multigraph β EdgeKind) α) (m : MethodBody β) :
    (onGraph w).perform m =
      (w.perform m.graph).map fun r => (r.1, { m with graph := r.2 }) := rfl

/-- Dropping the tree leaves the rest of a body. -/
@[simp] theorem perform_dropTree (m : MethodBody β) :
    dropTree.perform m = some (.ok (), { m with cache := none }) := rfl

end Body
end Strict
end Dominance
