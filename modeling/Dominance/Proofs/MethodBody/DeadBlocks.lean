import Mathlib.Logic.Relation
import Dominance.Proofs.MethodBody.Drawing
import Dominance.Proofs.MethodBody.Roots
import Dominance.Proofs.Tree.Order

/-!
# Dead blocks

A block of a method body is dead if no path leads to it from the entry or from a handler. The body
reports dead blocks by looking them up in the table of positions of its tree. A drawing looks a block up
among the visits of the tree, but only if it is neither the entry nor a handler, and draws it dashed if
it is not there. Both ways tell which blocks are reached, since roots always are.

Main statement: whatever operations lead to a body that has blocks, the dead blocks reported are those
that no path of added edges leads to from the entry or from an accepted handler, in ascending order, and
a drawing shows these dashed and no others.
-/

namespace Dominance

/-- An edge of a list leads from the first block to the second. -/
def Joined {ε : Type} (edges : List (Edge × ε)) (a b : Block) : Prop := ∃ x, (⟨a, b⟩, x) ∈ edges

/-- A walk leads from one block to another exactly if a chain of successors does. -/
theorem Flow.exists_walk_iff {f : Flow} {a b : Block} :
    (∃ p, f.Walk a p b) ↔ Relation.ReflTransGen (fun c d => d ∈ f.successors c) a b := by
  constructor
  · rintro ⟨p, w⟩
    induction w with
    | single => exact .refl
    | step h _ ih => exact .head h ih
  · intro h
    induction h with
    | refl => exact ⟨_, .single a⟩
    | tail _ hd ih =>
      obtain ⟨p, w⟩ := ih
      exact ⟨_, w.concat hd⟩

namespace MethodBody

open Drawing

variable {β : Type} {m : MethodBody β} {t : Tree} {b : Block}

/-! ## Dead blocks and their roles -/

private theorem mem_deadBlocks : b ∈ m.deadBlocks t ↔ m.graph.has b = true ∧ t.contains b = false := by
  simp [deadBlocks, Multigraph.mem_blocks]

/-- Dead blocks are reported in ascending order. -/
theorem pairwise_deadBlocks (m : MethodBody β) (t : Tree) :
    (m.deadBlocks t).Pairwise (·.index < ·.index) := by
  apply List.Pairwise.filter
  rw [Multigraph.blocks, List.pairwise_map]
  exact List.pairwise_lt_range

/-- The role of a block is looked up among the visits only if it is no root. -/
theorem roleOf_eq_unreachable_iff :
    m.roleOf (some t) b = .unreachable ↔ b ∉ m.roots ∧ b ∉ t.order.toList := by
  have hvisited : t.visited.contains b = t.order.toList.contains b := Std.ExtTreeSet.contains_ofList
  unfold roleOf roleAmong
  by_cases hentry : m.entry? = some b
  · simp [roots, hentry]
  · by_cases hhandler : b ∈ m.handlers
    · simp [roots, hentry, hhandler]
    · by_cases horder : b ∈ t.order <;> simp [roots, hentry, hhandler, hvisited, horder]

/-- The report asks the tree which blocks it contains. -/
theorem value_unreachable (m : MethodBody β) :
    m.unreachable.value.1 = m.dominators.value.1.map m.deadBlocks := by
  rw [unreachable, value_ask]
  cases m.dominators.value.1 with
  | error e => rfl
  | ok t =>
    simp only [Except.map]
    split
    · rfl
    · rfl

/-- The blocks that the roots reach are those that paths lead to from the entry or from a handler. -/
theorem reaches_roots_iff (hroots : ∀ r ∈ m.roots, m.graph.has r = true) (hfiled : m.graph.Filed) :
    m.flow.Reaches m.roots b ↔
      ∃ r ∈ m.roots, Relation.ReflTransGen (Joined m.graph.edges.toList) r b := by
  have hjoined : (fun c d => d ∈ m.flow.successors c) = Joined m.graph.edges.toList := by
    funext c d
    exact propext (hfiled.mem_successors c d)
  have hvalid : m.flow.validRoots m.roots = m.roots := List.filter_eq_self.mpr hroots
  simp only [Flow.Reaches, hvalid, Flow.exists_walk_iff, hjoined]

/-- A drawing and the report agree on the blocks that are unreachable. -/
theorem roleOf_eq_unreachable_iff_of_exact (ht : t.Exact m.flow m.roots)
    (hroots : ∀ r ∈ m.roots, m.graph.has r = true) :
    m.roleOf (some t) b = .unreachable ↔ t.contains b = false := by
  rw [roleOf_eq_unreachable_iff, ht.mem_order, ← Bool.not_eq_true, ht.contains_iff]
  -- A root that the drawing does not look up is reached anyway.
  refine ⟨And.right, fun hb => ⟨fun hr => hb ?_, hb⟩⟩
  exact Flow.reaches_of_mem (List.mem_filter.mpr ⟨hr, hroots b hr⟩)

/-! ## Dashed blocks -/

private theorem isDashed_style (role : Role) :
    (Part.plain (role.style ++ "];")).isDashed = decide (role = .unreachable) := by
  cases role <;> decide +kernel

private theorem isDashed_color (k : EdgeKind) :
    (Part.plain (", color=" ++ k.color ++ "];")).isDashed = false := by
  cases k with
  | unconditional => decide +kernel
  | onTrue => decide +kernel
  | onFalse => decide +kernel
  | onSwitch case =>
    show (Part.plain (", color=" ++ "blue" ++ "];")).isDashed = false
    decide +kernel

private theorem isDashed_of_not_mem {s : String} (h : 'y' ∉ s.toList) :
    (Part.plain s).isDashed = false :=
  mentions_eq_false (by decide : 'y' ∈ "style=dashed".toList) h

private theorem dashedNode?_nodeLine (b : Block) (role : Role) (text : String) :
    dashedNode? (nodeLine b (blockLabel b role text) role.style) =
      if role = .unreachable then some b.name else none := by
  -- What stands before the label depends on the block, but it never has the letters of the attribute.
  have hname : 'y' ∉ b.name.toList := b.not_mem_name (by decide) (by decide)
  have hbefore : (Part.plain ("    " ++ b.name ++ " [label=")).isDashed = false :=
    isDashed_of_not_mem (by simp [String.toList_append, hname])
  rw [(framed_nodeLine b role text).dashedNode?_eq hbefore, isDashed_style, firstWord_nodeLine]
  simp

private theorem dashedNode?_labelledEdgeLine (e : Edge) (k : EdgeKind) :
    dashedNode? (labelledEdgeLine e k.label k.color) = none := by
  have hsource : 'y' ∉ e.source.name.toList := e.source.not_mem_name (by decide) (by decide)
  have htarget : 'y' ∉ e.target.name.toList := e.target.not_mem_name (by decide) (by decide)
  have hbefore : (Part.plain ("    " ++ e.name ++ " [label=")).isDashed = false :=
    isDashed_of_not_mem (by simp [Edge.name, String.toList_append, hsource, htarget])
  rw [(framed_labelledEdgeLine e k).dashedNode?_eq hbefore, isDashed_color]
  rfl

private theorem dashedNode?_heading (title : Option String) :
    ∀ line ∈ titleLines "CFG" title ++ [titlePlace, nodeLook, edgeLook], dashedNode? line = none := by
  rw [List.forall_mem_append]
  constructor
  · cases title with
    | none => exact List.forall_mem_nil _
    | some s =>
      refine List.forall_mem_singleton.mpr ?_
      exact (framed_titleLine (by decide : Harmless "CFG") s).dashedNode?_eq (by decide +kernel)
  · simp only [List.forall_mem_cons]
    exact ⟨Harmless.dashedNode?_eq_none (by decide) (by decide +kernel),
      framed_nodeLook.dashedNode?_eq (by decide +kernel),
      framed_edgeLook.dashedNode?_eq (by decide +kernel), List.forall_mem_nil _⟩

variable [ToString β]

/-- Of the lines that declare blocks, those of unreachable blocks draw them dashed. -/
theorem filterMap_blockLines (m : MethodBody β) (t : Option Tree) :
    (m.blockLines t).filterMap dashedNode? =
      (m.graph.blocks.filter fun b => m.roleOf t b = .unreachable).map Block.name := by
  -- A line depends on the data of its block, but whether it is dashed depends on the index only.
  let shown (i : Nat) : Option String :=
    if m.roleOf t ⟨i⟩ = .unreachable then some (Block.name ⟨i⟩) else none
  have hindices : m.graph.nodes.toList.zipIdx.map Prod.snd = List.range m.graph.blockCount := by
    rw [List.zipIdx_map_snd, List.range_eq_range']
    simp [Multigraph.blockCount]
  calc (m.blockLines t).filterMap dashedNode?
      = m.graph.nodes.toList.zipIdx.filterMap (shown ∘ Prod.snd) := by
        simp only [blockLines, List.filterMap_map, Function.comp_def, dashedNode?_nodeLine, shown]
    _ = (List.range m.graph.blockCount).filterMap shown := by
        rw [← hindices, List.filterMap_map]
    _ = (m.graph.blocks.filter fun b => m.roleOf t b = .unreachable).map Block.name := by
        rw [← List.filterMap_eq_map, List.filterMap_filter, Multigraph.blocks, List.filterMap_map]
        simp [shown]

/-- A drawing shows the unreachable blocks dashed, and nothing else. -/
theorem dashedNodes_draw (m : MethodBody β) (title : Option String) :
    dashedNodes (m.draw title).value.1 = some ((m.graph.blocks.filter fun b =>
      m.roleOf m.dominators.value.1.toOption b = .unreachable).map Block.name) := by
  have hedges : ∀ line ∈ m.edgeLines, dashedNode? line = none := by
    rw [edgeLines, List.forall_mem_map]
    exact fun x _ => dashedNode?_labelledEdgeLine x.1 x.2
  have hopening : dashedNode? (opening "CFG") = none :=
    Harmless.dashedNode?_eq_none (by decide) (by decide +kernel)
  have hempty : dashedNode? "" = none := by decide +kernel
  have hclosing : dashedNode? closing = none := by decide +kernel
  rw [dashedNodes, endedLines_draw, Option.map_some, drawingLines_eq, assemble]
  simp only [List.filterMap_append, List.filterMap_cons, hopening, hempty, hclosing,
    List.filterMap_eq_nil_iff.mpr (dashedNode?_heading title), List.filterMap_eq_nil_iff.mpr hedges,
    filterMap_blockLines, List.filterMap_nil, List.nil_append, List.append_nil, List.cons_append]

end MethodBody

namespace Operation

open MethodBody Drawing

variable {β : Type} [ToString β]

/-- The roots of a body with blocks are its entry and the blocks that were allowed to become handlers. -/
theorem mem_roots_run (ops : List (Operation β)) (hne : 0 < (run .empty ops).value.2.blockCount)
    (r : Block) :
    r ∈ (run .empty ops).value.2.roots ↔
      r = ⟨0⟩ ∨ r ∈ acceptedHandlers ops (run .empty ops).value.1 := by
  have hnone : r ∉ (empty : MethodBody β).handlers := List.not_mem_nil
  rw [roots_of_nonempty (Multigraph.isEmpty_eq_false_iff.mpr hne), List.mem_cons, mem_handlers_run,
    or_iff_left hnone]

/-- Whatever operations have led to a body with blocks, the blocks that it reports as unreachable are, in
ascending order, those of its blocks that no path of added edges leads to from the entry or from a block
that was allowed to become a handler; these are its roots. Its drawing shows the reported blocks dashed,
one after the other, and nothing else. -/
theorem run_dead_exact (ops : List (Operation β)) (title : Option String)
    (hne : 0 < (run .empty ops).value.2.blockCount) :
    let answers := (run .empty ops).value.1
    let m := (run .empty ops).value.2
    (∀ r, r ∈ m.roots ↔ r = ⟨0⟩ ∨ r ∈ acceptedHandlers ops answers) ∧
    ∃ dead text,
      (apply m .unreachable).value.1 = .blocks (.ok dead) ∧
      dead.Pairwise (·.index < ·.index) ∧
      (∀ b, b ∈ dead ↔ b.index < m.blockCount ∧
        ¬∃ r, (r = ⟨0⟩ ∨ r ∈ acceptedHandlers ops answers) ∧
          Relation.ReflTransGen (Joined (addedEdges ops answers)) r b) ∧
      (apply m (.draw title)).value.1 = .drawing (.ok text) ∧
      dashedNodes text = some (dead.map Block.name) ∧
      (∀ b, b.name ∈ dead.map Block.name ↔ b ∈ dead) := by
  intro answers m
  have hblocks : m.graph.isEmpty = false := Multigraph.isEmpty_eq_false_iff.mpr hne
  have hrooted : m.Rooted := rooted_run ops
  have hroots := (hrooted.roots hblocks).2
  have hfresh : m.Fresh := fresh_run (fresh_of_cache_eq_none rfl) ops
  have hedges : m.graph.edges.toList = addedEdges ops answers := edges_run .empty ops
  have hmem : ∀ r, r ∈ m.roots ↔ r = ⟨0⟩ ∨ r ∈ acceptedHandlers ops answers := mem_roots_run ops hne
  let t := (Tree.build m.flow m.roots).value
  have ht : t.Exact m.flow m.roots := Tree.exact_build hrooted.closed.inRange m.roots
  have htree : m.dominators.value.1 = .ok t := by
    rw [hfresh.value_dominators, freshTree_of_nonempty hblocks]
  refine ⟨hmem, m.deadBlocks t, _, ?_, m.pairwise_deadBlocks t, fun b => ?_, rfl, ?_, fun b => ?_⟩
  · show Answer.blocks m.unreachable.value.1 = _
    rw [value_unreachable, htree]
    rfl
  · rw [mem_deadBlocks, Multigraph.has_iff, ← Bool.not_eq_true, ht.contains_iff,
      reaches_roots_iff hroots (filed_graph_run ops), hedges]
    simp only [hmem]
    rfl
  · show dashedNodes (m.draw title).value.1 = _
    rw [dashedNodes_draw, htree, Except.toOption, deadBlocks]
    simp only [roleOf_eq_unreachable_iff_of_exact ht hroots, Bool.decide_eq_false]
  · exact List.mem_map_of_injective Block.name_injective

/-- A body with two dead blocks that lead to each other and into live ones. Its data speaks of dashes, a
tree of fewer edges has been asked for, and an edge and a handler have been refused. -/
def derelict : List (Operation String) :=
  [.addBlock "style=dashed", .addBlock "b", .addBlock "c", .addBlock "\x22, style=dashed", .addBlock "e",
    .unreachable, .addHandler ⟨2⟩, .addHandler ⟨0⟩, .addEdge ⟨⟨0⟩, ⟨1⟩⟩ .onTrue,
    .addEdge ⟨⟨3⟩, ⟨4⟩⟩ .onFalse, .addEdge ⟨⟨4⟩, ⟨3⟩⟩ .unconditional, .addEdge ⟨⟨4⟩, ⟨1⟩⟩ .unconditional,
    .addEdge ⟨⟨0⟩, ⟨5⟩⟩ .onFalse, .addHandler ⟨5⟩]

/-- No path leads to the two blocks, and they are drawn dashed. -/
theorem run_dead_derelict :
    let answers := (run .empty derelict).value.1
    let m := (run .empty derelict).value.2
    0 < m.blockCount ∧
    m.unreachable.value.1 = .ok [⟨3⟩, ⟨4⟩] ∧
    (∀ b, b ∈ [⟨3⟩, ⟨4⟩] ↔ b.index < m.blockCount ∧
      ¬∃ r, (r = ⟨0⟩ ∨ r ∈ acceptedHandlers derelict answers) ∧
        Relation.ReflTransGen (Joined (addedEdges derelict answers)) r b) ∧
    dashedNodes (m.draw (some "dead")).value.1 = some ["bb3", "bb4"] := by
  intro answers m
  have hne : 0 < m.blockCount := by decide +kernel
  obtain ⟨_, dead, text, hreport, _, hdead, hdraw, hdashed, _⟩ :=
    run_dead_exact derelict (some "dead") hne
  have hlist : m.unreachable.value.1 = .ok [⟨3⟩, ⟨4⟩] := by decide +kernel
  have hsame : dead = [⟨3⟩, ⟨4⟩] := by
    have h : Answer.blocks m.unreachable.value.1 = .blocks (.ok dead) := hreport
    rw [hlist] at h
    cases h
    rfl
  subst hsame
  cases hdraw
  exact ⟨hne, hlist, hdead, hdashed⟩

end Operation
end Dominance
