import Dominance.Drawing.Escape

/-!
# Reading escaped text

Escaping as a code of single characters, and its reader. The reader takes a backslash followed by `n`
as a newline and a backslash followed by any other character as that character.
-/

namespace Dominance.Drawing

/-- The code of a single character. -/
def escapeChar (c : Char) : List Char :=
  if c = '\n' then ['\\', 'n']
  else if c = '\r' then []
  else if c ∈ ['\\', '\x22', '<', '>', '\x7b', '\x7d'] then ['\\', c]
  else [c]

/-- Read escaped text from the left; a backslash at the end stands for itself. -/
def unescapeChars : List Char → List Char
  | '\\' :: c :: rest => (if c = 'n' then '\n' else c) :: unescapeChars rest
  | c :: rest => c :: unescapeChars rest
  | [] => []

/-- A text without its carriage returns. -/
def withoutReturns (s : List Char) : List Char := s.filter (· ≠ '\r')

/-- The characters other than the backslash that must not stand alone in a label. -/
def marks : List Char := ['\x22', '<', '>', '\x7b', '\x7d']

/-- How many backslashes a text ends in. -/
def trailingBackslashes (s : List Char) : Nat := (s.reverse.takeWhile (· = '\\')).length

end Dominance.Drawing
