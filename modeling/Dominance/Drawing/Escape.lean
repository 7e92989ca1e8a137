/-!
# Escaped text

Text inside a quoted label. Characters that mean something in a label are escaped by a backslash, a
newline is written as an escape, and carriage returns are left out. The replacements are made one
after the other, that of the backslash first, so that no later backslash is escaped again.

The replacements are those of `escape_dot`.
-/

namespace Dominance.Drawing

/-- Replace every occurrence of a character by a text. -/
def replaceChar (c : Char) (text : List Char) (s : List Char) : List Char :=
  s.flatMap fun x => if x = c then text else [x]

/-- The replacements, in the order they are made. The double quote is `\x22`. -/
def replacements : List (Char × List Char) :=
  [ ('\\', ['\\', '\\']),
    ('\x22', ['\\', '\x22']),
    ('\n', ['\\', 'n']),
    ('\r', []),
    ('<', ['\\', '<']),
    ('>', ['\\', '>']),
    ('\x7b', ['\\', '\x7b']),
    ('\x7d', ['\\', '\x7d']) ]

/-- The characters of a text as they stand in a quoted label. -/
def escapeChars (s : List Char) : List Char :=
  replacements.foldl (fun s r => replaceChar r.1 r.2 s) s

/-- A text as it stands in a quoted label. This is `escape_dot`. -/
def escape (s : String) : String := String.ofList (escapeChars s.toList)

end Dominance.Drawing
