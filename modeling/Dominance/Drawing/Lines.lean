/-!
# Lines of a text

A text is cut at newlines. A carriage return directly before a newline belongs to the cut; any other
one stays. A text that ends with a newline has no empty last line.
-/

namespace Dominance.Drawing

/-- A finished line from its characters in reverse, without the carriage return of its cut. -/
def finishLine : List Char → List Char
  | '\r' :: line => line.reverse
  | line => line.reverse

/-- The lines of a text whose first line has begun with the characters of `line`, in reverse. -/
def linesFrom (line : List Char) : List Char → List (List Char)
  | [] => if line.isEmpty then [] else [line.reverse]
  | '\n' :: rest => finishLine line :: linesFrom [] rest
  | c :: rest => linesFrom (c :: line) rest

/-- The lines of a text. -/
def lines (s : String) : List String := (linesFrom [] s.toList).map String.ofList

end Dominance.Drawing
