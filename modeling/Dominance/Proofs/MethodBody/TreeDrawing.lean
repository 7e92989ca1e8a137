import Dominance.Proofs.Drawing.Reading
import Dominance.Proofs.MethodBody.Roots
import Dominance.Proofs.Tree.Children

/-!
# All views of a forest agree

A forest can be read from the immediate dominators, from the table of dominated blocks, from the
positions below each position, and from a drawing. A drawing names blocks and links without ambiguity,
because different blocks and different links have different names.

Main statement: all of these views show the same links, each of them once.
-/

namespace Dominance

private theorem Edge.name_injective : Function.Injective Edge.name := by
  intro e e' h
  -- The arrow is the only place with a hyphen, so it parts the names of the ends.
  have hsplit : ∀ e : Edge, e.name.toList =
      (e.source.name ++ " ").toList ++ '-' :: ("> " ++ e.target.name).toList := by
    intro e
    simp [Edge.name, String.toList_append]
  have hsource : '-' ∉ (e.source.name ++ " ").toList := by
    simp [String.toList_append, e.source.not_mem_name (c := '-') (by decide) (by decide)]
  have htarget : '-' ∉ ("> " ++ e.target.name).toList := by
    simp [String.toList_append, e.target.not_mem_name (c := '-') (by decide) (by decide)]
  have hlist := congrArg String.toList h
  rw [hsplit, hsplit, List.append_cons_inj_of_notMem hsource htarget] at hlist
  have hs : e.source = e'.source :=
    Block.name_injective ((String.append_left_inj " ").mp (String.toList_injective hlist.1))
  have ht : e.target = e'.target :=
    Block.name_injective ((String.append_right_inj "> ").mp (String.toList_injective hlist.2.2))
  cases e
  cases e'
  rw [Edge.mk.injEq]
  exact ⟨hs, ht⟩

namespace Tree

open Drawing

variable {t : Tree} {f : Flow} {roots : List Block} {e : Edge}

/-! ## Lines -/

/-- The line of a block in the drawing of a tree. -/
def blockLine (t : Tree) (b : Block) : String :=
  nodeLine b b.name (if t.isRoot b then ", shape=doubleoctagon" else "")

/-- The links of the table of dominated blocks, from dominators down. -/
def linkEdges (t : Tree) : List Edge := t.dominated.pairs.map fun x => ⟨x.1, x.2⟩

private theorem drawingLines_eq_assemble (t : Tree) (title : Option String) : t.drawingLines title =
    assemble "DominatorTree" (titleLines "Dominators" title ++ [titlePlace, nodeLook])
      (t.topological.map t.blockLine) (t.linkEdges.map edgeLine) := by
  simp only [drawingLines, linkEdges, Multimap.pairs, List.map_flatMap, List.map_map]
  rfl

private theorem framed_blockLine (t : Tree) (b : Block) :
    Framed (t.blockLine b) ("    " ++ b.name ++ " [label=") b.name
      ((if t.isRoot b then ", shape=doubleoctagon" else "") ++ "];") where
  eq := by
    apply String.ext
    simp [blockLine, nodeLine, statement, String.toList_append]
  harmless_before := (Harmless.append (by decide) (harmless_name b)).append (by decide)
  written := (harmless_name b).written
  newline := (harmless_name b).newline
  harmless_after := by split <;> decide

private theorem harmless_edgeLine (e : Edge) : Harmless (edgeLine e) :=
  (Harmless.append (by decide) (harmless_edgeName e)).append (by decide)

private theorem blockLine_injective (t : Tree) : Function.Injective t.blockLine := by
  intro b c h
  have hparts := (t.framed_blockLine b).parts_eq
  rw [h, (t.framed_blockLine c).parts_eq] at hparts
  simp only [Option.some.injEq, List.cons.injEq, Part.quoted.injEq] at hparts
  exact (Block.name_injective hparts.2.1).symm

private theorem edgeLine_injective : Function.Injective edgeLine := by
  intro e e' h
  exact Edge.name_injective ((String.append_right_inj "    ").mp ((String.append_left_inj ";").mp h))

/-- Lines are read back from the drawing of a tree. -/
theorem endedLines_drawingLines (t : Tree) (title : Option String) :
    endedLines (render (t.drawingLines title)) = some (t.drawingLines title) := by
  have hclosed : ∀ line ∈ t.drawingLines title, Closed line := by
    rw [drawingLines_eq_assemble]
    apply closed_assemble (by decide)
    · rw [List.forall_mem_append]
      refine ⟨closed_titleLines (by decide) title, fun line hline => closed_look line ?_⟩
      simp only [List.mem_cons, List.not_mem_nil, or_false] at hline ⊢
      exact hline.elim Or.inl fun h => Or.inr (Or.inl h)
    · rw [List.forall_mem_map]
      exact fun b _ => (t.framed_blockLine b).closed
    · rw [List.forall_mem_map]
      exact fun e _ => (harmless_edgeLine e).closed
  exact endedLines_render fun line hline => (hclosed line hline).newline

private theorem Exact.mem_linkEdges (ht : t.Exact f roots) :
    e ∈ t.linkEdges ↔ t.idom? e.target = some e.source := by
  rw [← ht.contains_dominated, ← Multimap.mem_pairs, linkEdges, List.mem_map]
  constructor
  · rintro ⟨x, hx, rfl⟩
    exact hx
  · intro h
    exact ⟨_, h, rfl⟩

private theorem nodup_linkEdges (t : Tree) : t.linkEdges.Nodup := by
  apply t.dominated.nodup_pairs.map
  intro x y h
  rw [Edge.mk.injEq] at h
  exact Prod.ext h.1 h.2

/-- A text that shows a forest: after the heading, a line for each reached block and then a line for
each link, with no line twice. -/
def ShownBy (f : Flow) (roots : List Block) (t : Tree) (title : Option String) (text : String) : Prop :=
  ∃ (blocks : List Block) (links : List Edge) (nodes edges : List String),
    endedLines text = some (opening "DominatorTree" :: titleLines "Dominators" title ++
      [titlePlace, nodeLook] ++ "" :: nodes ++ "" :: edges ++ [closing]) ∧
    nodes = blocks.map t.blockLine ∧ nodes.Nodup ∧
    (∀ b, b ∈ blocks ↔ f.Reaches roots b) ∧
    edges = links.map edgeLine ∧ edges.Nodup ∧
    (∀ e, e ∈ links ↔ t.idom? e.target = some e.source)

private theorem Exact.shownBy_drawing (ht : t.Exact f roots) (title : Option String) :
    t.ShownBy f roots title (render (t.drawingLines title)) := by
  refine ⟨t.topological, t.linkEdges, _, _, ?_, rfl, ?_, fun _ => ht.mem_topological, rfl, ?_,
    fun _ => ht.mem_linkEdges⟩
  · rw [endedLines_drawingLines, drawingLines_eq_assemble, assemble]
    simp
  · exact ht.nodup_topological.map t.blockLine_injective
  · exact t.nodup_linkEdges.map edgeLine_injective

end Tree

namespace MethodBody

open Drawing

variable {β : Type} {m : MethodBody β} {t : Tree}

/-- A body that has a tree draws it. -/
theorem value_drawTree (h : m.dominators.value.1 = .ok t) (title : Option String) :
    (m.drawTree title).value.1 = .ok (render (t.drawingLines title)) := by
  rw [drawTree, value_ask, h]
  rfl

end MethodBody

namespace Tree

open Drawing MethodBody

/-- All views of a forest that is built from an in-range flow agree. The table of dominated blocks, the
children of single blocks and the positions below positions have the links of the immediate dominators.
The table has no dominator without blocks, and as many blocks as there are visits other than roots.
Children ascend by block, and positions below a position ascend. Every reached block is in the tree of
exactly one root. A body with this flow and these roots draws this forest, one line for each reached
block and one for each link. -/
theorem views_build (f : Flow) (hf : f.InRange) (roots : List Block) :
    let t := (build f roots).value
    (∀ x y, (t.dominated.contains x y = true ↔ t.idom? y = some x) ∧
      (y ∈ t.childrenOf x ↔ t.idom? y = some x) ∧
      ((∃ i j, t.position? x = some i ∧ t.position? y = some j ∧
        j ∈ (t.children.getD i #[]).toList) ↔ t.idom? y = some x)) ∧
    (∀ x, t.dominated.containsKey x = true → t.dominated.values x ≠ []) ∧
    t.dominated.valueCount + t.roots.length = t.size ∧
    (∀ x, (t.childrenOf x).Pairwise fun y z => y.index < z.index) ∧
    (∀ i, i < t.size → (t.children.getD i #[]).toList.Pairwise (· < ·)) ∧
    (∀ b, f.Reaches roots b → ∃ r ∈ t.roots, (t.dominators b).getLast? = some r ∧
      ∀ a ∈ t.roots, t.dominates a b = true ↔ a = r) ∧
    (∀ {β : Type} [ToString β] (ops : List (Operation β)),
      let m := (Operation.run .empty ops).value.2
      m.graph.isEmpty = false → m.flow = f → m.roots = roots →
        m.dominators.value.1 = .ok t ∧
        ∀ title, ∃ text, (m.drawTree title).value.1 = .ok text ∧ t.ShownBy f roots title text) := by
  intro t
  have ht : t.Exact f roots := exact_build hf roots
  refine ⟨fun x y => ⟨ht.contains_dominated, ?_, ht.idom?_iff_children.symm⟩,
    fun x => ht.values_dominated_ne_nil, ht.valueCount_dominated (Preorder.nodup_eraseDups _), ?_,
    ht.children_ascending, fun b => ht.exists_head, ?_⟩
  · exact Multimap.mem_values.trans ht.contains_dominated
  · intro x
    apply (t.dominated.pairwise_values x).imp
    intro y z h
    exact Nat.compare_eq_lt.mp h
  · intro β _ ops m hne hflow hroots
    have hfresh : m.Fresh := Operation.fresh_run (fresh_of_cache_eq_none rfl) ops
    have hasked : m.dominators.value.1 = .ok t := by
      rw [hfresh.value_dominators, freshTree_of_nonempty hne, hflow, hroots]
    exact ⟨hasked, fun title => ⟨_, value_drawTree hasked title, ht.shownBy_drawing title⟩⟩

end Tree

/-- A body with a handler, a block that entry and handler share, and a block below that. -/
def Operation.forked : List (Operation String) :=
  [.addBlock "a", .addBlock "b", .addBlock "c", .addBlock "d", .addHandler ⟨2⟩,
    .addEdge ⟨⟨0⟩, ⟨1⟩⟩ .onTrue, .addEdge ⟨⟨2⟩, ⟨1⟩⟩ .unconditional,
    .addEdge ⟨⟨1⟩, ⟨3⟩⟩ .unconditional]

open Drawing Operation in
/-- Two of the four blocks are roots, the others have a link each, and a link is drawn as a line. -/
theorem Tree.views_forked :
    ∃ t text ls, (run .empty forked).value.2.dominators.value.1 = .ok t ∧
      t.roots.length = 2 ∧ t.size = 4 ∧ t.dominated.valueCount = 2 ∧
      t.dominated.contains ⟨1⟩ ⟨3⟩ = true ∧
      ((run .empty forked).value.2.drawTree none).value.1 = .ok text ∧
      endedLines text = some ls ∧ "    bb1 -> bb3;" ∈ ls := by
  have hne : (run .empty forked).value.2.graph.isEmpty = false := by decide +kernel
  obtain ⟨hlinks, _, hcount, _, _, _, hdraw⟩ :=
    views_build (run .empty forked).value.2.flow (rooted_run forked).closed.inRange
      (run .empty forked).value.2.roots
  obtain ⟨hasked, htexts⟩ := hdraw forked hne rfl rfl
  obtain ⟨text, htext, _, links, _, edges, hread, _, _, _, hedges, _, hmem⟩ := htexts none
  have hfacts : (run .empty forked).value.2.dominators.value.1.toOption.map
      (fun t => (t.roots.length, t.size, t.idom? ⟨3⟩)) = some (2, 4, some ⟨1⟩) := by decide +kernel
  rw [hasked] at hfacts
  simp only [Except.toOption, Option.map_some, Option.some.injEq, Prod.mk.injEq] at hfacts
  obtain ⟨hroots, hsize, hidom⟩ := hfacts
  refine ⟨_, text, _, hasked, hroots, hsize, by omega, (hlinks _ _).1.mpr hidom, htext, hread, ?_⟩
  have hline : edgeLine ⟨⟨1⟩, ⟨3⟩⟩ ∈ edges := by
    rw [hedges]
    exact List.mem_map_of_mem ((hmem ⟨⟨1⟩, ⟨3⟩⟩).mpr hidom)
  have hshown : edgeLine ⟨⟨1⟩, ⟨3⟩⟩ = "    bb1 -> bb3;" := by decide +kernel
  rw [hshown] at hline
  simp [hline]

end Dominance
