import Dominance.Proofs.Drawing.Reading
import Dominance.Proofs.MethodBody.Changes

/-!
# Drawings cannot be broken

Titles and the data of blocks are arbitrary text. In a drawing they stand in quoted strings, escaped, so
a reader finds the lines, strings and labels that were drawn, whatever the text is.

Main statement: a drawing has the lines that it should have, every line declares the block or shows the
edge that it should, no string is left open, and the label of a block is read back as its header and the
lines of its text.
-/

namespace Dominance
namespace MethodBody

open Drawing

variable {β : Type} {b : Block} {e : Edge} {k : EdgeKind}

/-- A line that shows a title. -/
def ShowsTitle (title line : String) : Prop :=
  ∃ body, parts line = some [.plain "    label=", .quoted body, .plain ";"] ∧
    unescapeChars body.toList = "CFG: ".toList ++ withoutReturns title.toList

/-- A line that declares a block. Its label is read as a header and the lines of a text, without
carriage returns. -/
def DeclaresBlock (b : Block) (role : Role) (text line : String) : Prop :=
  ∃ label, parts line = some [.plain ("    " ++ b.name ++ " [label="), .quoted label,
      .plain (role.style ++ "];")] ∧
    labelLines label =
      some ((b.name ++ role.note).toList :: (lines text).map fun l => withoutReturns l.toList)

/-- A line that shows an edge. -/
def ShowsEdge (e : Edge) (k : EdgeKind) (line : String) : Prop :=
  parts line = some [.plain ("    " ++ e.name ++ " [label="), .quoted (escape k.label),
    .plain (", color=" ++ k.color ++ "];")]

private theorem harmless_style (role : Role) : Harmless (role.style ++ "];") := by
  cases role <;> decide

private theorem harmless_note (role : Role) : Harmless role.note := by
  cases role <;> decide

private theorem harmless_color (k : EdgeKind) : Harmless (", color=" ++ k.color ++ "];") := by
  cases k with
  | unconditional => decide
  | onTrue => decide
  | onFalse => decide
  | onSwitch case =>
    show Harmless (", color=" ++ "blue" ++ "];")
    decide

/-! ## Blocks -/

/-- The header and the escaped lines that make up the label of a block. -/
def labelParts (b : Block) (role : Role) (text : String) : List String :=
  (b.name ++ role.note) :: (lines text).map escape

private theorem harmless_header (b : Block) (role : Role) : Harmless (b.name ++ role.note) :=
  (harmless_name b).append (harmless_note role)

private theorem written_labelParts (b : Block) (role : Role) (text : String) :
    ∀ l ∈ labelParts b role text, Written (· ≠ 'l') l.toList := by
  simp only [labelParts, List.forall_mem_cons, List.forall_mem_map]
  exact ⟨(harmless_header b role).written, fun l _ => written_escape l⟩

private theorem newline_not_mem_labelParts (b : Block) (role : Role) (text : String) :
    ∀ l ∈ labelParts b role text, '\n' ∉ l.toList := by
  simp only [labelParts, List.forall_mem_cons, List.forall_mem_map]
  exact ⟨(harmless_header b role).newline, fun l _ => newline_not_mem_escape l⟩

/-- A label is read as the header and the lines of the text, without carriage returns. -/
theorem labelLines_blockLabel (b : Block) (role : Role) (text : String) :
    labelLines (blockLabel b role text) =
      some ((b.name ++ role.note).toList :: (lines text).map fun l => withoutReturns l.toList) := by
  show labelLines (String.join ((labelParts b role text).map (· ++ "\\l"))) = _
  rw [labelLines_join (written_labelParts b role text)]
  simp only [labelParts, List.map_cons, List.map_map, Function.comp_def, unescapeChars_escape,
    (harmless_header b role).unescapeChars]

/-- The line of a block is one string, its label, between its name and its style. -/
theorem framed_nodeLine (b : Block) (role : Role) (text : String) :
    Framed (nodeLine b (blockLabel b role text) role.style) ("    " ++ b.name ++ " [label=")
      (blockLabel b role text) (role.style ++ "];") where
  eq := by
    apply String.ext
    simp [nodeLine, statement, String.toList_append]
  harmless_before := (Harmless.append (by decide) (harmless_name b)).append (by decide)
  written := written_join (written_labelParts b role text)
  newline := newline_not_mem_join (newline_not_mem_labelParts b role text)
  harmless_after := harmless_style role

private theorem declaresBlock_nodeLine (b : Block) (role : Role) (text : String) :
    DeclaresBlock b role text (nodeLine b (blockLabel b role text) role.style) :=
  ⟨_, (framed_nodeLine b role text).parts_eq, labelLines_blockLabel b role text⟩

/-! ## Edges and titles -/

/-- The line of an edge is one string, its escaped label, between its name and its colour. -/
theorem framed_labelledEdgeLine (e : Edge) (k : EdgeKind) :
    Framed (labelledEdgeLine e k.label k.color) ("    " ++ e.name ++ " [label=") (escape k.label)
      (", color=" ++ k.color ++ "];") where
  eq := by
    apply String.ext
    simp [labelledEdgeLine, statement, String.toList_append]
  harmless_before := (Harmless.append (by decide) (harmless_edgeName e)).append (by decide)
  written := (written_escape k.label).mono fun _ _ => trivial
  newline := newline_not_mem_escape k.label
  harmless_after := harmless_color k

private theorem showsTitle_titleLine (title : String) :
    ShowsTitle title (statement ("label=" ++ quoted ("CFG: " ++ escape title))) := by
  refine ⟨_, (framed_titleLine (by decide : Harmless "CFG") title).parts_eq, ?_⟩
  rw [String.toList_append, Harmless.unescapeChars_append (by decide), unescapeChars_escape]
  rfl

/-! ## Drawings -/

/-- The lines that show the edges of a body. -/
def edgeLines (m : MethodBody β) : List String :=
  m.graph.edges.toList.map fun x => labelledEdgeLine x.1 x.2.label x.2.color

/-- The line at the place of an edge shows the edge. -/
theorem showsEdge_edgeLines (m : MethodBody β) {j : Nat}
    (h : m.graph.edges[j]? = some (e, k)) :
    ∃ line, m.edgeLines[j]? = some line ∧ ShowsEdge e k line := by
  refine ⟨_, ?_, (framed_labelledEdgeLine e k).parts_eq⟩
  simp [edgeLines, h]

variable [ToString β]

/-- The lines that declare the blocks of a body. -/
def blockLines (m : MethodBody β) (t : Option Tree) : List String :=
  m.graph.nodes.toList.zipIdx.map fun x =>
    nodeLine ⟨x.2⟩ (blockLabel ⟨x.2⟩ (m.roleOf t ⟨x.2⟩) (toString x.1)) (m.roleOf t ⟨x.2⟩).style

/-- A drawing consists of its heading, the lines of blocks and the lines of edges. -/
theorem drawingLines_eq (m : MethodBody β) (t : Option Tree) (title : Option String) :
    m.drawingLines t title =
      assemble "CFG" (titleLines "CFG" title ++ [titlePlace, nodeLook, edgeLook]) (m.blockLines t)
        m.edgeLines := rfl

/-- A drawing is that of the body before it was asked for its dominators. -/
theorem value_draw (m : MethodBody β) (title : Option String) :
    (m.draw title).value.1 = render (m.drawingLines m.dominators.value.1.toOption title) := by
  obtain ⟨cache, h⟩ := m.exists_cache_dominators
  show render (m.dominators.value.2.drawingLines m.dominators.value.1.toOption title) = _
  rw [h]
  rfl

/-- Every line of a drawing is one line to a reader and leaves no string open. -/
theorem closed_drawingLines (m : MethodBody β) (t : Option Tree) (title : Option String) :
    ∀ line ∈ m.drawingLines t title, Closed line := by
  rw [drawingLines_eq]
  apply closed_assemble (by decide)
  · rw [List.forall_mem_append]
    exact ⟨closed_titleLines (by decide) title, closed_look⟩
  · rw [blockLines, List.forall_mem_map]
    exact fun x _ => (framed_nodeLine ⟨x.2⟩ _ (toString x.1)).closed
  · rw [edgeLines, List.forall_mem_map]
    exact fun x _ => (framed_labelledEdgeLine x.1 x.2).closed

/-- The lines of a drawing are read back from its text. -/
theorem endedLines_draw (m : MethodBody β) (title : Option String) :
    endedLines (m.draw title).value.1 =
      some (m.drawingLines m.dominators.value.1.toOption title) := by
  rw [value_draw]
  exact endedLines_render fun line hline => (m.closed_drawingLines _ title line hline).newline

/-- There is a title line if there is a title, and it shows the title. -/
theorem showsTitle_titleLines (title : Option String) :
    (title = none → titleLines "CFG" title = []) ∧
    (∀ s, title = some s → ∃ line, titleLines "CFG" title = [line] ∧ ShowsTitle s line) := by
  cases title with
  | none => simp [titleLines]
  | some s =>
    refine ⟨by simp, ?_⟩
    intro s' hs
    cases hs
    exact ⟨_, rfl, showsTitle_titleLine s⟩

/-- The line at the index of a block declares the block. -/
theorem declaresBlock_blockLines (m : MethodBody β) (t : Option Tree) {x : β}
    (h : m.graph.data? b = some x) :
    ∃ line, (m.blockLines t)[b.index]? = some line ∧
      DeclaresBlock b (m.roleOf t b) (toString x) line := by
  refine ⟨_, ?_, declaresBlock_nodeLine b _ (toString x)⟩
  have hnode : m.graph.nodes.toList[b.index]? = some x := by
    rw [Array.getElem?_toList]
    exact h
  simp [blockLines, List.getElem?_zipIdx, hnode]

/-- Whatever the title and the data of the blocks are, a drawing is read back as its heading, one line
for each block and one for each edge. No string is left open. Titles and data are read from strings; a
block's line is read as its header and the lines of its data, without carriage returns. -/
theorem draw_reads_back (m : MethodBody String) (title : Option String) :
    ∃ titles nodes edges ls : List String,
      ls = opening "CFG" :: titles ++ [titlePlace, nodeLook, edgeLook] ++ "" :: nodes ++
        "" :: edges ++ [closing] ∧
      endedLines (m.draw title).value.1 = some ls ∧
      (∀ line ∈ ls, ∃ ps, parts line = some ps) ∧
      (title = none → titles = []) ∧
      (∀ s, title = some s → ∃ line, titles = [line] ∧ ShowsTitle s line) ∧
      nodes.length = m.blockCount ∧
      (∀ b text, m.graph.data? b = some text → Cut text.toList ((lines text).map String.toList) ∧
        ∃ line, nodes[b.index]? = some line ∧
          DeclaresBlock b (m.roleOf m.dominators.value.1.toOption b) text line) ∧
      edges.length = m.graph.edgeCount ∧
      (∀ (j : Nat) e k, m.graph.edges[j]? = some (e, k) →
        ∃ line, edges[j]? = some line ∧ ShowsEdge e k line) ∧
      (∀ ops : List (Operation String), (Operation.run .empty ops).value.2 = m →
        m.graph.edges.toList = Operation.addedEdges ops (Operation.run .empty ops).value.1) := by
  let t := m.dominators.value.1.toOption
  have hclosed := closed_drawingLines m t title
  refine ⟨titleLines "CFG" title, m.blockLines t, m.edgeLines, m.drawingLines t title, ?_, ?_,
    fun line hline => (hclosed line hline).parts, (showsTitle_titleLines title).1,
    (showsTitle_titleLines title).2, ?_, ?_, ?_, ?_, ?_⟩
  · simp [drawingLines_eq, assemble]
  · exact m.endedLines_draw title
  · simp [blockLines, blockCount, Multigraph.blockCount]
  · intro b text h
    exact ⟨cut_lines text, declaresBlock_blockLines m t h⟩
  · simp [edgeLines, Multigraph.edgeCount]
  · intro j e k h
    exact showsEdge_edgeLines m h
  · rintro ops rfl
    exact Operation.edges_run .empty ops

/-- A body whose first block tries to end its label, and holds a break and a lone backslash. -/
def hostile : List (Operation String) :=
  [.addBlock "a\x22];\r\n\\l\\", .addBlock "", .addEdge ⟨⟨0⟩, ⟨1⟩⟩ .onTrue]

/-- The drawing has two lines for blocks and one for an edge, and the text stays in its label. -/
theorem draw_hostile :
    ∃ ls line label,
      endedLines ((Operation.run .empty hostile).value.2.draw (some "\x22\n\\")).value.1 = some ls ∧
      ls.length = 11 ∧ line ∈ ls ∧
      parts line = some [.plain "    bb0 [label=", .quoted label,
        .plain ", style=filled, fillcolor=lightgreen];"] ∧
      labelLines label =
        some ["bb0 (entry)".toList, ['a', '\x22', ']', ';'], ['\\', 'l', '\\']] := by
  obtain ⟨titles, nodes, edges, ls, hls, hread, _, _, htitle, hnodes, hblock, hedges, _⟩ :=
    draw_reads_back (Operation.run .empty hostile).value.2 (some "\x22\n\\")
  obtain ⟨title, htitles, _⟩ := htitle _ rfl
  obtain ⟨_, line, hline, label, hparts, hlabel⟩ := hblock ⟨0⟩ _ rfl
  refine ⟨ls, line, label, hread, ?_, ?_, hparts, hlabel.trans (by decide +kernel)⟩
  · have htwo : nodes.length = 2 := hnodes
    have hone : edges.length = 1 := hedges
    simp [hls, htitles, htwo, hone]
  · have hmem := List.mem_of_getElem? hline
    simp [hls, hmem]

end MethodBody
end Dominance
