import Dominance.MethodBody.Drawing

/-!
# Operations on method bodies

What can be done to a method body whose blocks hold data that can be shown as text: changes and
questions. A run applies operations one after the other and collects the answers. In a forgetful run
the body drops its dominator tree after each operation, so that every question builds its own.

The operations are the calls of a `ControlFlowGraph`, a copy being its `clone`.
-/

namespace Dominance

/-- A change of a method body, or a question that may build its dominator tree. -/
inductive Operation (β : Type) where
  | addBlock (data : β)
  | addEdge (edge : Edge) (kind : EdgeKind)
  | addHandler (block : Block)
  | setData (block : Block) (data : β)
  /-- Go on with a copy. -/
  | copy
  | dominators
  | frontiers
  | unreachable
  | draw (title : Option String)
  | drawTree (title : Option String)
deriving DecidableEq

/-- What an operation answers. -/
inductive Answer where
  /-- The name of a new block. -/
  | added (block : Block)
  /-- Whether a change was accepted. -/
  | outcome (result : Except Error Unit)
  /-- Whether a block was there to be written to. -/
  | written (present : Bool)
  | copied
  | tree (result : Except Error Tree)
  | frontiers (result : Except Error (Multimap Block Block))
  | blocks (result : Except Error (List Block))
  | drawing (result : Except Error String)

/-- Drop the dominator tree. -/
def MethodBody.forget {β : Type} (m : MethodBody β) : MethodBody β := { m with cache := none }

namespace Operation

variable {β : Type}

/-- The state after a change that may have been refused. -/
def keep (m : MethodBody β) (r : Except Error (MethodBody β)) : Answer × MethodBody β :=
  match r with
  | .error e => (.outcome (.error e), m)
  | .ok n => (.outcome (.ok ()), n)

/-- Perform an operation. A refused change leaves the body as it is. -/
def apply [ToString β] (m : MethodBody β) : Operation β → Logged (Answer × MethodBody β)
  | addBlock x => pure (.added m.graph.nextBlock, m.addBlock x)
  | addEdge e k => pure (keep m (m.addEdge e k))
  | addHandler b => return keep m (← m.addHandler b)
  | setData b x => pure (.written (m.graph.has b), m.setData b x)
  | copy => pure (.copied, m)
  | dominators => do
    let (r, m) ← m.dominators
    pure (.tree r, m)
  | frontiers => do
    let (r, m) ← m.frontiers
    pure (.frontiers r, m)
  | unreachable => do
    let (r, m) ← m.unreachable
    pure (.blocks r, m)
  | draw title => do
    let (text, m) ← m.draw title
    pure (.drawing (.ok text), m)
  | drawTree title => do
    let (r, m) ← m.drawTree title
    pure (.drawing r, m)

/-- Perform operations one after the other. -/
def run [ToString β] (m : MethodBody β) :
    List (Operation β) → Logged (List Answer × MethodBody β)
  | [] => pure ([], m)
  | op :: ops => do
    let (a, m) ← apply m op
    let (as, m) ← run m ops
    pure (a :: as, m)

/-- Perform operations one after the other on a body that never keeps its dominator tree. -/
def runForgetful [ToString β] (m : MethodBody β) :
    List (Operation β) → Logged (List Answer × MethodBody β)
  | [] => pure ([], m)
  | op :: ops => do
    let (a, m) ← apply m op
    let (as, m) ← runForgetful m.forget ops
    pure (a :: as, m)

/-- A body stays as it is if nothing is done to it. -/
@[simp] theorem run_nil [ToString β] (m : MethodBody β) : run m [] = pure ([], m) := rfl

end Operation
end Dominance
