/-!
# Blocks and edges

A block is named by its index and ordered by it. An edge is an ordered pair of blocks, ordered by
source and then by target. Both orders are lawful, so blocks and edges may be keys of ordered maps.

A block is a `BlockId` and an edge an `Edge`; names are those of `dot_node_name`, and the long forms
carry the names of the two types.
-/

namespace Dominance

/-- A basic block of a flow graph, named by its position in the graph. -/
structure Block where
  index : Nat
deriving DecidableEq, Repr

namespace Block

/-- Blocks are ordered by index. -/
instance : Ord Block where
  compare a b := compare a.index b.index

instance : Std.TransOrd Block :=
  inferInstanceAs (Std.TransCmp (compareOn Block.index))

instance : Std.LawfulEqOrd Block where
  compare_self := Nat.compare_eq_eq.mpr rfl
  eq_of_compare := by
    intro a b h
    cases a
    cases b
    exact congrArg Block.mk (Nat.compare_eq_eq.mp h)

/-- The name of a block in messages and drawings, such as `bb5`. -/
def name (b : Block) : String := "bb" ++ toString b.index

/-- The long form used in records of the solver, such as `BlockId(5)`. -/
def inspect (b : Block) : String := "BlockId(" ++ toString b.index ++ ")"

end Block

/-- A directed edge between two blocks. -/
structure Edge where
  source : Block
  target : Block
deriving DecidableEq, Repr

namespace Edge

/-- Edges are ordered by source, and edges of one source by target. -/
instance : Ord Edge where
  compare := compareLex (compareOn Edge.source) (compareOn Edge.target)

instance : Std.TransOrd Edge :=
  inferInstanceAs (Std.TransCmp (compareLex (compareOn Edge.source) (compareOn Edge.target)))

instance : Std.LawfulEqOrd Edge where
  compare_self := Std.ReflCmp.compare_self
  eq_of_compare := by
    intro a b h
    cases a
    cases b
    obtain ⟨hs, ht⟩ := compareLex_eq_eq.mp h
    rw [Edge.mk.injEq]
    exact ⟨Std.LawfulEqOrd.eq_of_compare hs, Std.LawfulEqOrd.eq_of_compare ht⟩

/-- An edge from a block to itself. -/
def isLoop (e : Edge) : Bool := e.source == e.target

/-- The edge taken backwards. -/
def reversed (e : Edge) : Edge := ⟨e.target, e.source⟩

/-- The text of an edge, such as `bb4 -> bb9`. -/
def name (e : Edge) : String := e.source.name ++ " -> " ++ e.target.name

/-- The long form of an edge, which spells out both of its ends. -/
def inspect (e : Edge) : String :=
  "Edge \x7b from: " ++ e.source.inspect ++ ", to: " ++ e.target.inspect ++ " \x7d"

/-- Reversal is its own inverse. -/
@[simp] theorem reversed_reversed (e : Edge) : e.reversed.reversed = e := rfl

end Edge
end Dominance
