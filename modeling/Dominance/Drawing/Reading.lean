import Dominance.Drawing.Unescape

/-!
# Reading drawings

How a drawing is read. A text is a sequence of lines, each ended by a newline. A line consists of plain
text and quoted strings; in a string a backslash takes the next character with it, whatever that is. A
label is a sequence of lines as well, each ended by a left-justifying break, which is an escape like any
other. Reading fails if a line, a string or the line of a label is not ended. A line is about the node
that its first word names, and its attributes stand outside of strings.
-/

namespace Dominance.Drawing

/-- A part of a line: text outside of strings, or what stands between the quotes of a string. -/
inductive Part where
  | plain (text : String)
  | quoted (body : String)
deriving DecidableEq

/-- The lines of a text whose first line has begun with the characters of `line`, in reverse. -/
def endedFrom (line : List Char) : List Char → Option (List String)
  | [] => if line.isEmpty then some [] else none
  | c :: rest =>
    if c = '\n' then (endedFrom [] rest).map (String.ofList line.reverse :: ·)
    else endedFrom (c :: line) rest

/-- The lines of a text, each of which must end with a newline. -/
def endedLines (s : String) : Option (List String) := endedFrom [] s.toList

mutual

/-- The parts of a line from plain text on that has begun with the characters of `text`, in reverse. -/
def plainFrom (text : List Char) : List Char → Option (List Part)
  | [] => some [.plain (String.ofList text.reverse)]
  | c :: rest =>
    if c = '\x22' then (quotedFrom [] rest).map (.plain (String.ofList text.reverse) :: ·)
    else plainFrom (c :: text) rest

/-- The parts of a line from a string on that has begun with the characters of `body`, in reverse. -/
def quotedFrom (body : List Char) : List Char → Option (List Part)
  | [] => none
  | '\\' :: c :: rest => quotedFrom (c :: '\\' :: body) rest
  | c :: rest =>
    if c = '\x22' then (plainFrom [] rest).map (.quoted (String.ofList body.reverse) :: ·)
    else quotedFrom (c :: body) rest

end

/-- The parts of a line, no string of which may be left open. -/
def parts (line : String) : Option (List Part) := plainFrom [] line.toList

/-- The lines of a label, as written, whose first line has begun with the characters of `line`, in
reverse. -/
def brokenFrom (line : List Char) : List Char → Option (List (List Char))
  | [] => if line.isEmpty then some [] else none
  | '\\' :: c :: rest =>
    if c = 'l' then (brokenFrom [] rest).map (line.reverse :: ·)
    else brokenFrom (c :: '\\' :: line) rest
  | c :: rest => brokenFrom (c :: line) rest

/-- The lines of a label, each of which must end with a break, with their escapes undone. -/
def labelLines (label : String) : Option (List (List Char)) :=
  (brokenFrom [] label.toList).map (·.map unescapeChars)

/-- Whether a word stands somewhere in a text. -/
def mentions (word : List Char) : List Char → Bool
  | [] => word.isEmpty
  | c :: rest => word.isPrefixOf (c :: rest) || mentions word rest

/-- Whether a part of a line asks for a dashed outline. What stands in a string asks for nothing. -/
def Part.isDashed : Part → Bool
  | plain text => mentions "style=dashed".toList text.toList
  | quoted _ => false

/-- The first word of a line. -/
def firstWord (line : String) : String :=
  String.ofList ((line.toList.dropWhile (· == ' ')).takeWhile (· != ' '))

/-- The name of the node that a line draws with a dashed outline, if it does. -/
def dashedNode? (line : String) : Option String :=
  match parts line with
  | none => none
  | some ps => if ps.any Part.isDashed then some (firstWord line) else none

/-- The names of the nodes that a drawing shows with a dashed outline, in the order of their lines. -/
def dashedNodes (text : String) : Option (List String) :=
  (endedLines text).map (·.filterMap dashedNode?)

end Dominance.Drawing
