import Dominance.Block
import Dominance.Drawing.Escape

/-!
# Drawings

A drawing is a directed graph in the Graphviz language, as a list of lines. It has a heading, one
line for each node, one line for each edge, and a closing line; an empty line stands before the
nodes and before the edges.

The lines are the ones that `to_dot` and `dominator_tree_to_dot` of a `ControlFlowGraph` write.
-/

namespace Dominance.Drawing

/-- A text in double quotes. -/
def quoted (s : String) : String := "\"" ++ s ++ "\""

/-- An indented statement. -/
def statement (s : String) : String := "    " ++ s ++ ";"

/-- The first line of a drawing. -/
def opening (name : String) : String := "digraph " ++ name ++ " \x7b"

/-- The last line of a drawing. -/
def closing : String := "\x7d"

/-- The title line, if there is a title. Its text is escaped. -/
def titleLines (kind : String) (title : Option String) : List String :=
  match title with
  | none => []
  | some t => [statement ("label=" ++ quoted (kind ++ ": " ++ escape t))]

/-- The title stands at the top. -/
def titlePlace : String := statement "labelloc=t"

/-- How nodes look. -/
def nodeLook : String :=
  statement ("node [shape=box, fontname=" ++ quoted "Courier" ++ ", fontsize=10]")

/-- How edges look. -/
def edgeLook : String := statement ("edge [fontname=" ++ quoted "Courier" ++ ", fontsize=9]")

/-- The line of a node. The label must be escaped already. -/
def nodeLine (b : Block) (label style : String) : String :=
  statement (b.name ++ " [label=" ++ quoted label ++ style ++ "]")

/-- The line of an edge without attributes. -/
def edgeLine (e : Edge) : String := statement e.name

/-- The line of an edge with a label and a colour. -/
def labelledEdgeLine (e : Edge) (label color : String) : String :=
  statement (e.name ++ " [label=" ++ quoted (escape label) ++ ", color=" ++ color ++ "]")

/-- The lines of a whole drawing. -/
def assemble (name : String) (heading nodes edges : List String) : List String :=
  opening name :: heading ++ "" :: nodes ++ "" :: edges ++ [closing]

/-- The text of a drawing: every line ends with a newline. -/
def render (ls : List String) : String := String.join (ls.map (· ++ "\n"))

end Dominance.Drawing
