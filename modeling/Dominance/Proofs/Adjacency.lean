import Mathlib.Algebra.BigOperators.Group.Finset.Basic
import Mathlib.Algebra.GroupWithZero.Nat
import Dominance.Multigraph.Edit
import Dominance.Proofs.Multigraph
import Dominance.Proofs.Strict.Forest
import Dominance.Strict.Multigraph

/-!
# Adjacency tables

A graph keeps its edges in one list and, for each block, the positions of the edges that leave it and of
those that enter it. Both tables are filed in the same way: a row holds the positions of the edges that
have the block at one of their ends, oldest first. Every edit keeps this.

Main statement: whatever edits have been made of a graph, refused ones among them, every stored position
is that of an edge, the neighbours of a block are the ends of the edges added at it, and both tables
account for every edge exactly once.
-/

namespace Dominance

/-- A present row takes another position. -/
theorem Strict.file_of_lt {table : Array (Array Nat)} {i : Nat} (hi : i < table.size)
    (position : Nat) : file table i position = some (table.modify i (·.push position)) := by
  rw [file, Array.getElem?_eq_getElem hi]
  show write table i (table[i].push position) = _
  rw [write_of_lt hi]
  rfl

namespace Multigraph

variable {ν ε : Type} {g h : Multigraph ν ε} {side : Edge → Block} {table : Array (Array Nat)}
  {edges : List (Edge × ε)} {e : Edge} {x : ε} {b : Block}

/-! ## Rows -/

/-- The edges that have a block at one of their ends; `side` tells which end is meant. -/
def edgesWith (side : Edge → Block) (b : Block) (edges : List (Edge × ε)) : List (Edge × ε) :=
  edges.filter (side ·.1 == b)

/-- The positions of these edges, ascending. -/
def positionsWith (side : Edge → Block) (b : Block) (edges : List (Edge × ε)) : List Nat :=
  (edges.zipIdx.filter fun y => side y.1.1 == b).map Prod.snd

/-- A new edge is the last one in the row of its end. -/
theorem positionsWith_concat (y : Edge × ε) :
    positionsWith side b (edges ++ [y]) =
      positionsWith side b edges ++ if side y.1 = b then [edges.length] else [] := by
  by_cases hb : side y.1 = b <;> simp [positionsWith, List.zipIdx_append, hb]

private theorem lt_of_mem_positionsWith {i : Nat} (hi : i ∈ positionsWith side b edges) :
    i < edges.length := by
  obtain ⟨y, hy, rfl⟩ := List.mem_map.mp hi
  exact List.snd_lt_of_mem_zipIdx (List.mem_of_mem_filter hy)

private theorem edgesWith_eq_map_zipIdx :
    edgesWith side b edges = (edges.zipIdx.filter fun y => side y.1.1 == b).map Prod.fst := by
  rw [edgesWith, ← List.zipIdx_map_fst 0 edges, List.filter_map, List.zipIdx_map_fst]
  rfl

/-- The edges at the positions of a row are those with the block at their end. -/
theorem mapM_positionsWith :
    (positionsWith side b edges).mapM (edges[·]?) = some (edgesWith side b edges) := by
  rw [positionsWith, List.mapM_map, edgesWith_eq_map_zipIdx]
  apply Strict.mapM_eq_some
  intro y hy
  exact List.mem_zipIdx_iff_getElem?.mp (List.mem_of_mem_filter hy)

private theorem length_positionsWith :
    (positionsWith side b edges).length = (edgesWith side b edges).length := by
  rw [positionsWith, edgesWith_eq_map_zipIdx, List.length_map, List.length_map]

/-- If all edges end among different blocks, then their rows hold all edges. -/
theorem sum_length_edgesWith {bs : List Block} (hnodup : bs.Nodup)
    (hends : ∀ y ∈ edges, side y.1 ∈ bs) :
    (bs.map fun b => (edgesWith side b edges).length).sum = edges.length := by
  let ends : Multiset Block := edges.map (side ·.1)
  have hcount : ∀ b, (edgesWith side b edges).length = ends.count b := by
    intro b
    rw [Multiset.coe_count, List.count_eq_countP, List.countP_map, edgesWith,
      ← List.countP_eq_length_filter]
    rfl
  have hmem : ∀ b ∈ ends, b ∈ bs.toFinset := by
    intro b hb
    obtain ⟨y, hy, rfl⟩ := List.mem_map.mp hb
    exact List.mem_toFinset.mpr (hends y hy)
  simp only [hcount]
  rw [← List.sum_toFinset _ hnodup, Multiset.sum_count_eq_card hmem]
  simp [ends]

/-! ## Tables -/

/-- The rows of a table hold the positions of the edges with a block at one of their ends. -/
structure Files (g : Multigraph ν ε) (side : Edge → Block) (table : Array (Array Nat)) : Prop where
  size : table.size = g.blockCount
  row : ∀ b : Block, (table.getD b.index #[]).toList = positionsWith side b g.edges.toList

namespace Files

private theorem addBlock (ht : g.Files side table) (y : ν) :
    (g.addBlock y).Files side (table.push #[]) where
  size := by simp [ht.size]
  row b := by
    rw [show (g.addBlock y).edges = g.edges from rfl, ← ht.row b]
    congr 1
    simp only [Array.getD_eq_getD_getElem?, Array.getElem?_push]
    split
    · next hb => simp [hb]
    · rfl

private theorem setData (ht : g.Files side table) (c : Block) (y : ν) :
    (g.setData c y).Files side table where
  size := by simp [ht.size]
  row := ht.row

/-- An edge is filed at the end of the row of its end. -/
theorem addEdge (ht : g.Files side table) (hend : g.has (side e) = true)
    (hnodes : h.nodes = g.nodes) (hedges : h.edges = g.edges.push (e, x)) :
    h.Files side (table.modify (side e).index (·.push g.edges.size)) where
  size := by
    rw [Array.size_modify, ht.size, blockCount, blockCount, hnodes]
  row b := by
    have hlt : (side e).index < table.size := by
      rw [ht.size]
      exact has_iff.mp hend
    rw [hedges, Array.toList_push, positionsWith_concat, ← ht.row b]
    simp only [Array.getD_eq_getD_getElem?, Array.getElem?_modify]
    by_cases hb : side e = b
    · subst hb
      simp [Array.getElem?_eq_getElem hlt]
    · have hne : (side e).index ≠ b.index := fun hi => hb (congrArg Block.mk hi)
      simp [hb, hne]

/-- Every position in a table is that of an edge. -/
theorem lt_edgeCount (ht : g.Files side table) {row : Array Nat} (hrow : row ∈ table) {i : Nat}
    (hi : i ∈ row) : i < g.edgeCount := by
  obtain ⟨k, hk⟩ := Array.getElem?_of_mem hrow
  have hget := ht.row ⟨k⟩
  rw [Array.getD_eq_getD_getElem?, hk, Option.getD_some] at hget
  rw [← Array.mem_toList_iff, hget] at hi
  simpa [edgeCount] using lt_of_mem_positionsWith hi

/-- No look-up in a table fails, and it finds the edges with the block at their end. -/
theorem edgesAt (ht : g.Files side table) (b : Block) :
    Strict.edgesAt g (table.getD b.index #[]) = some (edgesWith side b g.edges.toList) := by
  rw [Strict.edgesAt, ht.row b, ← mapM_positionsWith]
  simp

/-- As many positions are noted for a block as there are edges with it at their end. -/
theorem size_row (ht : g.Files side table) (b : Block) :
    (table.getD b.index #[]).size = (edgesWith side b g.edges.toList).length := by
  rw [← Array.length_toList, ht.row b, length_positionsWith]

/-- The rows of all blocks hold all edges, each of them once. -/
theorem sum_size_rows (ht : g.Files side table) (hends : ∀ y ∈ g.edges, g.has (side y.1) = true) :
    (g.blocks.map fun b => (table.getD b.index #[]).size).sum = g.edgeCount := by
  have hnodup : g.blocks.Nodup := List.nodup_range.map fun i j hij => Block.mk.inj hij
  have hmem : ∀ y ∈ g.edges.toList, side y.1 ∈ g.blocks := fun y hy =>
    mem_blocks.mpr (hends y (Array.mem_toList_iff.mp hy))
  simp only [ht.size_row]
  rw [sum_length_edgesWith hnodup hmem, edgeCount, Array.length_toList]

end Files

/-! ## Graphs -/

/-- Every edge joins two blocks of the graph and is noted at both of its ends. -/
structure Filed (g : Multigraph ν ε) : Prop where
  closed : g.Closed
  outgoing : g.Files Edge.source g.outgoing
  incoming : g.Files Edge.target g.incoming

/-- A graph without edges has nothing to note. -/
theorem filed_empty : (empty : Multigraph ν ε).Filed where
  closed := closed_empty
  outgoing := ⟨rfl, fun b => by simp [empty, positionsWith]⟩
  incoming := ⟨rfl, fun b => by simp [empty, positionsWith]⟩

namespace Filed

/-- A new block begins with no edge noted. -/
theorem addBlock (hg : g.Filed) (y : ν) : (g.addBlock y).Filed where
  closed := hg.closed.mono (by simp) rfl
  outgoing := hg.outgoing.addBlock y
  incoming := hg.incoming.addBlock y

/-- New data leaves what is noted of edges. -/
theorem setData (hg : g.Filed) (c : Block) (y : ν) : (g.setData c y).Filed where
  closed := hg.closed.mono (by simp) rfl
  outgoing := hg.outgoing.setData c y
  incoming := hg.incoming.setData c y

/-- An accepted edge is noted at both of its ends and nowhere else. -/
theorem addEdge (hg : g.Filed) (he : g.addEdge e x = .ok h) : h.Filed where
  closed := hg.closed.addEdge he
  outgoing := by
    obtain ⟨hs, _, rfl⟩ := addEdge_eq_ok_iff.mp he
    exact hg.outgoing.addEdge hs rfl rfl
  incoming := by
    obtain ⟨_, ht, rfl⟩ := addEdge_eq_ok_iff.mp he
    exact hg.incoming.addEdge ht rfl rfl

/-- Look-ups that cannot fail leave nothing out. -/
private theorem filterMap_of_mapM {α γ : Type} {f : α → Option γ} {as : List α} {cs : List γ}
    (hm : as.mapM f = some cs) : as.filterMap f = cs := by
  induction as generalizing cs with
  | nil => simpa using hm
  | cons a as ih =>
    rw [List.mapM_cons] at hm
    obtain ⟨c, hc, hm⟩ := Option.bind_eq_some_iff.mp hm
    obtain ⟨ds, hds, hm⟩ := Option.bind_eq_some_iff.mp hm
    cases hm
    rw [List.filterMap_cons_some hc, ih hds]

private theorem outgoingEdges_eq (hg : g.Filed) (b : Block) :
    g.outgoingEdges b = edgesWith Edge.source b g.edges.toList :=
  filterMap_of_mapM (hg.outgoing.edgesAt b)

private theorem incomingEdges_eq (hg : g.Filed) (b : Block) :
    g.incomingEdges b = edgesWith Edge.target b g.edges.toList :=
  filterMap_of_mapM (hg.incoming.edgesAt b)

/-- The successors of a block are the targets of the edges that leave it. -/
theorem mem_successors (hg : g.Filed) (b c : Block) :
    c ∈ g.successors b ↔ ∃ x, (⟨b, c⟩, x) ∈ g.edges.toList := by
  rw [successors, hg.outgoingEdges_eq, edgesWith, List.mem_map]
  constructor
  · rintro ⟨⟨e, x⟩, he, rfl⟩
    obtain ⟨hmem, hsource⟩ := List.mem_filter.mp he
    cases eq_of_beq hsource
    exact ⟨x, hmem⟩
  · rintro ⟨x, hmem⟩
    exact ⟨_, List.mem_filter.mpr ⟨hmem, beq_self_eq_true b⟩, rfl⟩

/-- An edge is as often among the successors of its source as among the predecessors of its target. -/
theorem count_successors (hg : g.Filed) (u v : Block) :
    (g.successors u).count v = (g.predecessors v).count u := by
  rw [successors, predecessors, hg.outgoingEdges_eq, hg.incomingEdges_eq]
  simp only [List.count_eq_countP, List.countP_map, edgesWith, List.countP_filter]
  congr 1
  funext y
  exact Bool.and_comm _ _

/-- The writes of an edge find every index present, and a refusal comes before the first of them. -/
theorem perform_addEdge (hg : g.Filed) (e : Edge) (x : ε) :
    (Strict.addEdge e x).perform g = some (leave g (g.addEdge e x)) := by
  unfold Strict.addEdge Multigraph.addEdge
  cases hs : g.has e.source with
  | false => simp [hs, leave]
  | true =>
    cases ht : g.has e.target with
    | false => simp [hs, ht, leave]
    | true =>
      have hout : e.source.index < g.outgoing.size := hg.outgoing.size ▸ has_iff.mp hs
      have hin : e.target.index < g.incoming.size := hg.incoming.size ▸ has_iff.mp ht
      simp [hs, ht, leave, Strict.file_of_lt hout, Strict.file_of_lt hin]

end Filed

namespace Edit

/-! ## Runs -/

private theorem filed_apply (hg : g.Filed) (edit : Edit ν ε) : (apply g edit).2.Filed := by
  cases edit with
  | addBlock y => exact hg.addBlock y
  | setData c y => exact hg.setData c y
  | addEdge e x =>
    simp only [apply]
    cases he : g.addEdge e x with
    | error r => exact hg
    | ok h => exact hg.addEdge he

private theorem filed_run (hg : g.Filed) (edits : List (Edit ν ε)) : (run g edits).2.Filed := by
  induction edits generalizing g with
  | nil => exact hg
  | cons edit edits ih => exact ih (filed_apply hg edit)

/-- An edge that an edit adds comes after all others. -/
theorem edges_apply (g : Multigraph ν ε) (edit : Edit ν ε) :
    (apply g edit).2.edges.toList = g.edges.toList ++ (added? edit (apply g edit).1).toList := by
  cases edit with
  | addBlock y => exact (List.append_nil _).symm
  | setData c y => exact (List.append_nil _).symm
  | addEdge e x =>
    simp only [apply]
    cases he : g.addEdge e x with
    | error r => exact (List.append_nil _).symm
    | ok h => simp [leave, added?, (of_addEdge_eq_ok he).2.2.2]

private theorem edges_run (g : Multigraph ν ε) (edits : List (Edit ν ε)) :
    (run g edits).2.edges.toList = g.edges.toList ++ added edits (run g edits).1 := by
  induction edits generalizing g with
  | nil => simp [run, added]
  | cons edit edits ih =>
    simp only [run]
    rw [ih, edges_apply, List.append_assoc]
    cases hadded : added? edit (apply g edit).1 <;> simp [added, hadded]

/-- Whatever edits have been made, refused ones among them, the edges of the graph are those added, in
the order of their addition. Every position that a table holds is that of an edge, and no look-up fails.
The edges, successors and predecessors found for a block are those of the added edges at it, oldest first
and with repetitions, so the two tables agree on how many edges lead from one block to another, and both
account for every edge once. All edges join blocks of the graph. A new edge finds every index that it
writes to; it is accepted between blocks of the graph, and otherwise its source, if that is missing, or
else its target is named, and nothing has been written. -/
theorem run_adjacency (edits : List (Edit ν ε)) :
    let g := (run .empty edits).2
    let edges := added edits (run .empty edits).1
    g.edges.toList = edges ∧
    (∀ row, row ∈ g.outgoing ∨ row ∈ g.incoming → ∀ i ∈ row, i < g.edgeCount) ∧
    (∀ b, Strict.outgoingEdges g b = some (edgesWith Edge.source b edges) ∧
      Strict.incomingEdges g b = some (edgesWith Edge.target b edges) ∧
      g.outgoingEdges b = edgesWith Edge.source b edges ∧
      g.successors b = (edgesWith Edge.source b edges).map (·.1.target) ∧
      g.predecessors b = (edgesWith Edge.target b edges).map (·.1.source)) ∧
    (∀ u v, (g.successors u).count v = (g.predecessors v).count u) ∧
    (g.blocks.map g.outDegree).sum = g.edgeCount ∧ (g.blocks.map g.inDegree).sum = g.edgeCount ∧
    (∀ y ∈ edges, g.has y.1.source = true ∧ g.has y.1.target = true) ∧ g.flow.InRange ∧
    (∀ e x, (Strict.addEdge e x).perform g = some (leave g (g.addEdge e x)) ∧
      (g.has e.source = true → g.has e.target = true →
        (apply g (.addEdge e x)).1 = .outcome (.ok ())) ∧
      (g.has e.source = false →
        apply g (.addEdge e x) = (.outcome (.error (.invalidBlock e.source)), g)) ∧
      (g.has e.source = true → g.has e.target = false →
        apply g (.addEdge e x) = (.outcome (.error (.invalidBlock e.target)), g))) := by
  intro g edges
  have hg : g.Filed := filed_run filed_empty edits
  have hedges : g.edges.toList = edges := by
    rw [edges_run]
    rfl
  refine ⟨hedges, ?_, ?_, hg.count_successors,
    hg.outgoing.sum_size_rows fun y hy => (hg.closed y hy).1,
    hg.incoming.sum_size_rows fun y hy => (hg.closed y hy).2, ?_, hg.closed.inRange, ?_⟩
  · rintro row (hrow | hrow) i hi
    · exact hg.outgoing.lt_edgeCount hrow hi
    · exact hg.incoming.lt_edgeCount hrow hi
  · intro b
    rw [successors, predecessors, hg.outgoingEdges_eq, hg.incomingEdges_eq, ← hedges]
    exact ⟨hg.outgoing.edgesAt b, hg.incoming.edgesAt b, rfl, rfl, rfl⟩
  · intro y hy
    rw [← hedges, Array.mem_toList_iff] at hy
    exact hg.closed y hy
  · intro e x
    refine ⟨hg.perform_addEdge e x, fun hs ht => ?_, fun hs => ?_, fun hs ht => ?_⟩
    · simp [apply, Multigraph.addEdge, hs, ht, leave]
    · simp [apply, Multigraph.addEdge, hs, leave]
    · simp [apply, Multigraph.addEdge, hs, ht, leave]

/-- Edits that make parallel edges and a loop, and that are refused at either end. -/
def braided : List (Edit String Nat) :=
  [.addEdge ⟨⟨0⟩, ⟨1⟩⟩ 0, .addBlock "a", .addEdge ⟨⟨0⟩, ⟨1⟩⟩ 1, .addBlock "b", .addEdge ⟨⟨0⟩, ⟨1⟩⟩ 2,
    .addEdge ⟨⟨1⟩, ⟨1⟩⟩ 3, .setData ⟨1⟩ "c", .addEdge ⟨⟨0⟩, ⟨1⟩⟩ 4, .addEdge ⟨⟨2⟩, ⟨5⟩⟩ 5]

/-- Three of six edges are refused, and the parallel ones are found in the order of their addition. -/
theorem run_adjacency_braided :
    let g := (run .empty braided).2
    g.edgeCount = 3 ∧ (∃ row ∈ g.incoming, 2 ∈ row ∧ 2 < g.edgeCount) ∧
      Strict.outgoingEdges g ⟨0⟩ = some [(⟨⟨0⟩, ⟨1⟩⟩, 2), (⟨⟨0⟩, ⟨1⟩⟩, 4)] ∧
      (g.predecessors ⟨1⟩).count ⟨0⟩ = 2 ∧
      apply g (.addEdge ⟨⟨2⟩, ⟨5⟩⟩ 6) = (.outcome (.error (.invalidBlock ⟨2⟩)), g) ∧
      apply g (.addEdge ⟨⟨1⟩, ⟨5⟩⟩ 6) = (.outcome (.error (.invalidBlock ⟨5⟩)), g) := by
  intro g
  obtain ⟨_, hrows, hlook, hcount, _, _, _, _, hnew⟩ := run_adjacency braided
  have hrow : #[0, 1, 2] ∈ g.incoming := by decide +kernel
  refine ⟨rfl, ⟨_, hrow, by simp, hrows _ (.inr hrow) 2 (by simp)⟩, ?_, ?_, ?_, ?_⟩
  · rw [(hlook ⟨0⟩).1]
    decide +kernel
  · rw [← hcount, (hlook ⟨0⟩).2.2.2.1]
    decide +kernel
  · exact (hnew _ _).2.2.1 rfl
  · exact (hnew _ _).2.2.2 rfl rfl

end Edit

end Multigraph
end Dominance
