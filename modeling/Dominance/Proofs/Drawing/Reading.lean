import Std.Data.String.ToNat
import Dominance.Drawing.Basic
import Dominance.Drawing.Lines
import Dominance.Drawing.Reading
import Dominance.Proofs.Drawing.Escape

/-!
# Reading what was drawn

Lines without newlines are read back from a text that ends each of them with one. A string is read back
from between plain texts without quotes, and the lines of a label from between its breaks. Cutting a text
into lines is described by how the text is put together from them.
-/

namespace Dominance

/-! ## Names -/

/-- Different blocks have different names. -/
theorem Block.name_injective : Function.Injective Block.name := by
  intro a b h
  have hindex : toString a.index = toString b.index := (String.append_right_inj "bb").mp h
  rw [Nat.toString_eq_repr, Nat.toString_eq_repr] at hindex
  have he := Nat.repr_injective hindex
  cases a
  cases b
  exact congrArg Block.mk he

/-- A name consists of a letter, twice, and digits. -/
theorem Block.not_mem_name {c : Char} (hc : c ∉ "bb".toList) (hdigit : c.isDigit = false) (b : Block) :
    c ∉ b.name.toList := by
  rw [Block.name, String.toList_append, List.mem_append, not_or]
  refine ⟨hc, fun hmem => ?_⟩
  rw [Nat.toString_eq_repr, Nat.toList_repr] at hmem
  rw [Nat.isDigit_of_mem_toDigits (by decide) (by decide) hmem] at hdigit
  cases hdigit

namespace Drawing

variable {allowed : Char → Prop} {s t line body text rest : List Char}

/-! ## Text that needs no escapes -/

/-- Text that means nothing to a reader: it has no backslash, no quote and no newline. -/
def Harmless (s : String) : Prop := ∀ c ∈ s.toList, c ≠ '\\' ∧ c ≠ '\x22' ∧ c ≠ '\n'

instance (s : String) : Decidable (Harmless s) :=
  List.decidableBAll (fun c => c ≠ '\\' ∧ c ≠ '\x22' ∧ c ≠ '\n') s.toList

/-- Two harmless texts are harmless together. -/
theorem Harmless.append {s t : String} (hs : Harmless s) (ht : Harmless t) : Harmless (s ++ t) := by
  unfold Harmless at *
  rw [String.toList_append, List.forall_mem_append]
  exact ⟨hs, ht⟩

private theorem Harmless.quote {s : String} (h : Harmless s) : '\x22' ∉ s.toList :=
  fun hmem => (h _ hmem).2.1 rfl

/-- Harmless text is all on one line. -/
theorem Harmless.newline {s : String} (h : Harmless s) : '\n' ∉ s.toList :=
  fun hmem => (h _ hmem).2.2 rfl

/-- Harmless text may stand in a string. -/
theorem Harmless.written {s : String} (h : Harmless s) : Written allowed s.toList :=
  written_of_forall fun c hc => ⟨(h c hc).1, (h c hc).2.1⟩

/-- Harmless text is read as it is, whatever follows it. -/
theorem Harmless.unescapeChars_append {s : String} (h : Harmless s) (t : List Char) :
    unescapeChars (s.toList ++ t) = s.toList ++ unescapeChars t :=
  unescapeChars_append_of_forall (fun c hc => (h c hc).1) t

/-- Harmless text is read as it is. -/
theorem Harmless.unescapeChars {s : String} (h : Harmless s) :
    unescapeChars s.toList = s.toList := by
  simpa [Drawing.unescapeChars] using h.unescapeChars_append []

/-- Numbers are written in digits. -/
theorem harmless_toString (n : Nat) : Harmless (toString n) := by
  intro c hc
  rw [Nat.toString_eq_repr, Nat.toList_repr] at hc
  have hdigit := Nat.isDigit_of_mem_toDigits (by decide) (by decide) hc
  refine ⟨?_, ?_, ?_⟩ <;> rintro rfl <;> exact absurd hdigit (by decide)

/-- The name of a block is harmless. -/
theorem harmless_name (b : Block) : Harmless b.name :=
  Harmless.append (by decide) (harmless_toString b.index)

/-- The name of an edge is harmless. -/
theorem harmless_edgeName (e : Edge) : Harmless e.name :=
  ((harmless_name e.source).append (by decide)).append (harmless_name e.target)

/-! ## Lines -/

private theorem endedFrom_append (hs : '\n' ∉ s) :
    endedFrom line (s ++ '\n' :: rest) =
      (endedFrom [] rest).map (String.ofList (line.reverse ++ s) :: ·) := by
  induction s generalizing line with
  | nil => simp [endedFrom]
  | cons c s ih =>
    rw [List.mem_cons, not_or] at hs
    rw [List.cons_append, endedFrom, if_neg (Ne.symm hs.1), ih hs.2]
    simp

/-- Lines are read back from the text that ends each of them with a newline. -/
theorem endedLines_render {ls : List String} (h : ∀ l ∈ ls, '\n' ∉ l.toList) :
    endedLines (render ls) = some ls := by
  unfold endedLines render
  rw [String.toList_join]
  induction ls with
  | nil => rfl
  | cons l ls ih =>
    rw [List.forall_mem_cons] at h
    have hl : (l ++ "\n").toList = l.toList ++ ['\n'] := String.toList_append
    rw [List.map_cons, List.flatMap_cons, hl, List.append_assoc, List.singleton_append,
      endedFrom_append h.1, ih h.2]
    simp

/-- A text is cut into lines: a newline ends a line, a carriage return directly before it belongs to the
cut, and the last line needs no newline. -/
inductive Cut : List Char → List (List Char) → Prop where
  | nil : Cut [] []
  | last {line : List Char} (hne : line ≠ []) (hline : '\n' ∉ line) : Cut line [line]
  | newline {line rest : List Char} {ls : List (List Char)} (hline : '\n' ∉ line)
    (hreturn : line.getLast? ≠ some '\r') (h : Cut rest ls) :
    Cut (line ++ '\n' :: rest) (line :: ls)
  | pair {line rest : List Char} {ls : List (List Char)} (hline : '\n' ∉ line) (h : Cut rest ls) :
    Cut (line ++ '\r' :: '\n' :: rest) (line :: ls)

/-- What ends at a newline is a line, less the carriage return before it. -/
theorem Cut.finishLine {ls : List (List Char)} (hline : '\n' ∉ line) (h : Cut rest ls) :
    Cut (line.reverse ++ '\n' :: rest) (finishLine line :: ls) := by
  unfold Drawing.finishLine
  split
  · next line =>
    rw [List.mem_cons, not_or] at hline
    rw [List.reverse_cons, List.append_assoc, List.singleton_append]
    exact .pair (by simpa using hline.2) h
  · next hreturn =>
    refine .newline (by simpa using hline) ?_ h
    rw [List.getLast?_reverse]
    intro hhead
    obtain ⟨tail, rfl⟩ := List.head?_eq_some_iff.mp hhead
    exact hreturn tail rfl

private theorem cut_linesFrom (line s : List Char) (hline : '\n' ∉ line) :
    Cut (line.reverse ++ s) (linesFrom line s) := by
  fun_induction linesFrom line s with
  | case1 line hempty =>
    rw [List.isEmpty_iff.mp hempty]
    exact .nil
  | case2 line hne =>
    rw [List.append_nil]
    exact .last (by simpa using hne) (by simpa using hline)
  | case3 line rest ih => exact (ih List.not_mem_nil).finishLine hline
  | case4 line c rest hc ih =>
    have hmem : '\n' ∉ c :: line := by
      rw [List.mem_cons, not_or]
      exact ⟨Ne.symm hc, hline⟩
    simpa using ih hmem

/-- The lines of a text are those that it is cut into. -/
theorem cut_lines (s : String) : Cut s.toList ((lines s).map String.toList) := by
  simpa [lines, Function.comp_def] using cut_linesFrom [] s.toList List.not_mem_nil

/-! ## Strings -/

private theorem plainFrom_append (hs : '\x22' ∉ s) :
    plainFrom text (s ++ rest) = plainFrom (s.reverse ++ text) rest := by
  induction s generalizing text with
  | nil => rfl
  | cons c s ih =>
    rw [List.mem_cons, not_or] at hs
    rw [List.cons_append, plainFrom, if_neg (Ne.symm hs.1), ih hs.2]
    simp

private theorem quotedFrom_append (hs : Written allowed s) :
    quotedFrom body (s ++ rest) = quotedFrom (s.reverse ++ body) rest := by
  induction hs generalizing body with
  | nil => rfl
  | plain hb hq _ ih => simp [quotedFrom, hb, hq, ih]
  | escaped _ _ ih => simp [quotedFrom, ih]

private theorem plainFrom_quote :
    plainFrom text ('\x22' :: rest) =
      (quotedFrom [] rest).map (.plain (String.ofList text.reverse) :: ·) := by
  simp [plainFrom]

private theorem quotedFrom_quote :
    quotedFrom body ('\x22' :: rest) =
      (plainFrom [] rest).map (.quoted (String.ofList body.reverse) :: ·) := by
  simp [quotedFrom]

/-- A line that is one line to a reader and leaves no string open. -/
structure Closed (line : String) : Prop where
  newline : '\n' ∉ line.toList
  parts : ∃ ps, parts line = some ps

/-- A harmless line has no string. -/
theorem Harmless.parts_eq {s : String} (h : Harmless s) : parts s = some [.plain s] := by
  unfold parts
  rw [← List.append_nil s.toList, plainFrom_append h.quote, plainFrom]
  simp

/-- A harmless line leaves no string open. -/
theorem Harmless.closed {s : String} (h : Harmless s) : Closed s where
  newline := h.newline
  parts := ⟨_, h.parts_eq⟩

/-- A line that consists of a string between two harmless texts. -/
structure Framed (line before body after : String) : Prop where
  eq : line = before ++ quoted body ++ after
  harmless_before : Harmless before
  written : Written (fun _ => True) body.toList
  newline : '\n' ∉ body.toList
  harmless_after : Harmless after

namespace Framed

variable {line before body after : String}

/-- The string and the texts around it are read back. -/
theorem parts_eq (h : Framed line before body after) :
    parts line = some [.plain before, .quoted body, .plain after] := by
  have hline : line.toList =
      before.toList ++ ('\x22' :: (body.toList ++ ('\x22' :: (after.toList ++ [])))) := by
    rw [h.eq]
    simp [quoted, String.toList_append]
  unfold parts
  rw [hline, plainFrom_append h.harmless_before.quote, plainFrom_quote, quotedFrom_append h.written,
    quotedFrom_quote, plainFrom_append h.harmless_after.quote, plainFrom]
  simp

/-- A line with one string between harmless texts leaves no string open. -/
theorem closed (h : Framed line before body after) : Closed line where
  newline := by
    rw [h.eq]
    simp [quoted, String.toList_append, h.harmless_before.newline, h.newline,
      h.harmless_after.newline]
  parts := ⟨_, h.parts_eq⟩

end Framed

/-- An escaped text may stand in a string and breaks no line of a label. -/
theorem written_escape (s : String) : Written (· ≠ 'l') (escape s).toList := by
  rw [toList_escape]
  exact written_escapeChars s.toList

/-- An escaped text is all on one line. -/
theorem newline_not_mem_escape (s : String) : '\n' ∉ (escape s).toList := by
  rw [toList_escape]
  exact newline_not_mem_escapeChars s.toList

/-- An escaped text is read as the text without its carriage returns. -/
theorem unescapeChars_escape (s : String) :
    unescapeChars (escape s).toList = withoutReturns s.toList := by
  rw [toList_escape]
  exact unescapeChars_escapeChars s.toList

/-! ## Dashed nodes -/

/-- A text without one of its characters does not mention a word. -/
theorem mentions_eq_false {c : Char} (hc : c ∈ t) (hs : c ∉ s) : mentions t s = false := by
  induction s with
  | nil => simpa [mentions] using List.ne_nil_of_mem hc
  | cons d s ih =>
    have hprefix : t.isPrefixOf (d :: s) = false := by
      rw [← Bool.not_eq_true, List.isPrefixOf_iff_prefix]
      exact fun h => hs (h.subset hc)
    rw [mentions, hprefix, ih fun h => hs (List.mem_cons_of_mem d h), Bool.false_or]

/-- A harmless line that does not ask for dashes draws no dashed node. -/
theorem Harmless.dashedNode?_eq_none {s : String} (h : Harmless s)
    (hs : (Part.plain s).isDashed = false) : dashedNode? s = none := by
  simp [dashedNode?, h.parts_eq, hs]

/-- Whether a line draws a dashed node is decided by what stands behind its string. -/
theorem Framed.dashedNode?_eq {line before body after : String} (h : Framed line before body after)
    (hbefore : (Part.plain before).isDashed = false) :
    dashedNode? line = if (Part.plain after).isDashed then some (firstWord line) else none := by
  have hbody : (Part.quoted body).isDashed = false := rfl
  simp [dashedNode?, h.parts_eq, hbefore, hbody]

/-- The first word is what stands between the indentation and the next space. -/
theorem firstWord_indented {word rest : String} (hne : word.toList ≠ []) (hspace : ' ' ∉ word.toList) :
    firstWord ("    " ++ word ++ " " ++ rest) = word := by
  have hkeep : ∀ c ∈ word.toList, (c != ' ') = true := fun c hc => by
    rw [bne_iff_ne]
    exact fun he => hspace (he ▸ hc)
  have hdrop : (word.toList ++ ' ' :: rest.toList).dropWhile (· == ' ') =
      word.toList ++ ' ' :: rest.toList := by
    obtain ⟨c, cs, hword⟩ := List.exists_cons_of_ne_nil hne
    have hc : (c == ' ') = false := by simpa [hword] using hkeep c
    rw [hword, List.cons_append, List.dropWhile_cons, hc]
    rfl
  have hline : ("    " ++ word ++ " " ++ rest).toList =
      "    ".toList ++ (word.toList ++ ' ' :: rest.toList) := by
    simp [String.toList_append]
  rw [firstWord, hline, List.dropWhile_append_of_pos (by simp), hdrop,
    List.takeWhile_append_of_pos hkeep, List.takeWhile_cons]
  simp

/-- The line of a node begins with the name of its block. -/
theorem firstWord_nodeLine (b : Block) (label style : String) :
    firstWord (nodeLine b label style) = b.name := by
  have hline : nodeLine b label style =
      "    " ++ b.name ++ " " ++ ("[label=" ++ quoted label ++ style ++ "];") := by
    apply String.ext
    simp [nodeLine, statement, String.toList_append]
  rw [hline]
  exact firstWord_indented (by simp [Block.name]) (b.not_mem_name (by decide) (by decide))

/-! ## Labels -/

private theorem brokenFrom_append (hs : Written (· ≠ 'l') s) :
    brokenFrom line (s ++ rest) = brokenFrom (s.reverse ++ line) rest := by
  induction hs generalizing line with
  | nil => rfl
  | plain hb _ _ ih => simp [brokenFrom, hb, ih]
  | escaped hc _ ih => simp [brokenFrom, hc, ih]

/-- The lines of a label are read back from between its breaks. -/
theorem labelLines_join {ls : List String} (h : ∀ l ∈ ls, Written (· ≠ 'l') l.toList) :
    labelLines (String.join (ls.map (· ++ "\\l"))) =
      some (ls.map fun l => unescapeChars l.toList) := by
  have hbroken : brokenFrom [] (String.join (ls.map (· ++ "\\l"))).toList =
      some (ls.map String.toList) := by
    rw [String.toList_join]
    induction ls with
    | nil => rfl
    | cons l ls ih =>
      rw [List.forall_mem_cons] at h
      have hl : (l ++ "\\l").toList = l.toList ++ ['\\', 'l'] := String.toList_append
      rw [List.map_cons, List.flatMap_cons, hl, List.append_assoc, brokenFrom_append h.1]
      simp [brokenFrom, ih h.2]
  unfold labelLines
  rw [hbroken]
  simp [Function.comp_def]

/-- A label may stand in a string. -/
theorem written_join {ls : List String} (h : ∀ l ∈ ls, Written (· ≠ 'l') l.toList) :
    Written (fun _ => True) (String.join (ls.map (· ++ "\\l"))).toList := by
  rw [String.toList_join]
  induction ls with
  | nil => exact .nil
  | cons l ls ih =>
    rw [List.forall_mem_cons] at h
    have hbreak : Written (fun _ => True) "\\l".toList := .escaped trivial .nil
    rw [List.map_cons, List.flatMap_cons, String.toList_append]
    exact ((h.1.mono fun _ _ => trivial).append hbreak).append (ih h.2)

/-- Lines of a label, joined by their breaks, are all on one line of the file. -/
theorem newline_not_mem_join {ls : List String} (h : ∀ l ∈ ls, '\n' ∉ l.toList) :
    '\n' ∉ (String.join (ls.map (· ++ "\\l"))).toList := by
  rw [String.toList_join, List.mem_flatMap]
  rintro ⟨_, hmem, hnewline⟩
  obtain ⟨l, hl, rfl⟩ := List.mem_map.mp hmem
  rw [String.toList_append, List.mem_append] at hnewline
  exact hnewline.elim (h l hl) (by decide)

/-! ## Whole drawings -/

/-- The line of a title has one string: the kind of drawing and the escaped title. -/
theorem framed_titleLine {kind : String} (hkind : Harmless kind) (title : String) :
    Framed (statement ("label=" ++ quoted (kind ++ ": " ++ escape title))) "    label="
      (kind ++ ": " ++ escape title) ";" where
  eq := by
    apply String.ext
    simp [statement, String.toList_append]
  harmless_before := by decide
  written := by
    rw [String.toList_append]
    exact (hkind.append (by decide)).written.append ((written_escape title).mono fun _ _ => trivial)
  newline := by
    rw [String.toList_append, List.mem_append, not_or]
    exact ⟨(hkind.append (by decide)).newline, newline_not_mem_escape title⟩
  harmless_after := by decide

/-- The line of a title, if there is one, leaves no string open. -/
theorem closed_titleLines {kind : String} (hkind : Harmless kind) (title : Option String) :
    ∀ line ∈ titleLines kind title, Closed line := by
  cases title with
  | none => exact List.forall_mem_nil _
  | some s => exact List.forall_mem_singleton.mpr (framed_titleLine hkind s).closed

/-- The line for the look of nodes has one string, the name of the font. -/
theorem framed_nodeLook :
    Framed nodeLook "    node [shape=box, fontname=" "Courier" ", fontsize=10];" :=
  ⟨by decide +kernel, by decide, Harmless.written (by decide), by decide, by decide⟩

/-- The line for the look of edges has one string, the name of the font. -/
theorem framed_edgeLook : Framed edgeLook "    edge [fontname=" "Courier" ", fontsize=9];" :=
  ⟨by decide +kernel, by decide, Harmless.written (by decide), by decide, by decide⟩

/-- The lines of a heading that are always the same. -/
theorem closed_look : ∀ line ∈ [titlePlace, nodeLook, edgeLook], Closed line := by
  simp only [List.forall_mem_cons]
  exact ⟨Harmless.closed (by decide), framed_nodeLook.closed, framed_edgeLook.closed,
    List.forall_mem_nil _⟩

/-- A drawing is closed if its heading, its nodes and its edges are. -/
theorem closed_assemble {name : String} {heading nodes edges : List String} (hname : Harmless name)
    (hheading : ∀ line ∈ heading, Closed line) (hnodes : ∀ line ∈ nodes, Closed line)
    (hedges : ∀ line ∈ edges, Closed line) :
    ∀ line ∈ assemble name heading nodes edges, Closed line := by
  have hopening : Harmless (opening name) := (Harmless.append (by decide) hname).append (by decide)
  have hempty : Closed "" := Harmless.closed (by decide)
  have hclosing : Closed closing := Harmless.closed (by decide)
  simp only [assemble, List.cons_append, List.forall_mem_cons, List.forall_mem_append]
  exact ⟨hopening.closed, ⟨⟨hheading, hempty, hnodes⟩, hempty, hedges⟩, hclosing, List.forall_mem_nil _⟩

end Drawing
end Dominance
