import Dominance.Drawing.Basic
import Dominance.Drawing.Lines
import Dominance.MethodBody.Basic

/-!
# Drawings of method bodies

A method body is drawn with its blocks and edges, or as its dominator tree. In the first drawing the
data of a block stands in its label as text, line by line; the entry is filled, handlers are double octagons,
and blocks that cannot be reached are dashed.

The drawings are `to_dot` and `dominator_tree_to_dot` of a `ControlFlowGraph`.
-/

namespace Dominance
namespace MethodBody

open Drawing

variable {β : Type}

/-- What a block is in a drawing; unreachable is said only of a block that is no root. -/
inductive Role where
  | entry
  | handler
  | unreachable
  | plain
deriving DecidableEq, Repr

/-- What follows the name of a block in its label. -/
def Role.note : Role → String
  | entry => " (entry)"
  | handler => " (handler)"
  | _ => ""

/-- How a node of this role is drawn. -/
def Role.style : Role → String
  | entry => ", style=filled, fillcolor=lightgreen"
  | handler => ", shape=doubleoctagon"
  | unreachable => ", style=dashed, color=gray"
  | plain => ""

/-- The role of a block, given those that can be reached. If these are not known, every block counts as
reachable. -/
def roleAmong (m : MethodBody β) (reached : Option (Std.ExtTreeSet Block)) (b : Block) : Role :=
  if m.entry? = some b then .entry
  else if m.handlers.contains b then .handler
  else if reached.all (·.contains b) then .plain
  else .unreachable

/-- The role of a block, given a tree, which has visited the blocks that can be reached. -/
def roleOf (m : MethodBody β) (t : Option Tree) (b : Block) : Role := m.roleAmong (t.map (·.visited)) b

/-- The label of a block: name, role and text; each line ends with a left-justifying break. -/
def blockLabel (b : Block) (role : Role) (text : String) : String :=
  String.join (((b.name ++ role.note) :: (lines text).map escape).map (· ++ "\\l"))

/-- The lines of a drawn method body. -/
def drawingLines [ToString β] (m : MethodBody β) (t : Option Tree) (title : Option String) :
    List String :=
  let reached := t.map (·.visited)
  assemble "CFG" (titleLines "CFG" title ++ [titlePlace, nodeLook, edgeLook])
    (m.graph.nodes.toList.zipIdx.map fun (x, i) =>
      let role := m.roleAmong reached ⟨i⟩
      nodeLine ⟨i⟩ (blockLabel ⟨i⟩ role (toString x)) role.style)
    (m.graph.edges.toList.map fun (e, kind) => labelledEdgeLine e kind.label kind.color)

/-- Draw a method body. The dominator tree tells which blocks can be reached. This is `to_dot`. -/
def draw [ToString β] (m : MethodBody β) (title : Option String) :
    Logged (String × MethodBody β) := do
  let (t, m) ← m.dominators
  pure (render (m.drawingLines t.toOption title), m)

end MethodBody

open Drawing in
/-- The lines of a drawn dominator tree. Roots are double octagons. -/
def Tree.drawingLines (t : Tree) (title : Option String) : List String :=
  assemble "DominatorTree" (titleLines "Dominators" title ++ [titlePlace, nodeLook])
    (t.topological.map fun b =>
      nodeLine b b.name (if t.isRoot b then ", shape=doubleoctagon" else ""))
    (t.dominated.toList.flatMap fun (d, bs) => bs.map fun b => edgeLine ⟨d, b⟩)

/-- Draw the dominator tree of a method body. This is `dominator_tree_to_dot`. -/
def MethodBody.drawTree {β : Type} (m : MethodBody β) (title : Option String) :
    Logged (Except Error String × MethodBody β) :=
  m.ask fun t => pure (Drawing.render (t.drawingLines title))

end Dominance
