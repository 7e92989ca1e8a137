import Dominance.Tree.Frontier

/-!
# Tables derived from a tree

Children and frontiers of single blocks are read from tables of the whole tree. Where many blocks are
asked about, a tree is put beside its tables; each table is made when it is first read and then kept.
The laws say that answers read from kept tables are those of the tree itself.

The tables are the ones that a `DominatorTree` keeps for `children` and `dominance_frontier`.
-/

namespace Dominance

/-- A tree beside tables that are derived from it. -/
structure Tables where
  tree : Tree
  /-- Each dominator with the blocks that it immediately dominates. -/
  dominated : Thunk (Multimap Block Block)
  /-- Each reachable block with its frontier. -/
  frontiers : Thunk (Multimap Block Block)

/-- The tables of a tree, none of them made yet. -/
def Tree.tables (t : Tree) : Tables := ⟨t, .mk fun _ => t.dominated, .mk fun _ => t.frontiers⟩

namespace Tables

/-- The blocks that a block immediately dominates, ascending. -/
def childrenOf (x : Tables) (b : Block) : List Block := x.dominated.get.values b

/-- The frontier of a block, ascending, if the block is reachable. -/
def frontier? (x : Tables) (b : Block) : Option (List Block) := x.frontiers.get.get? b

/-- Tables are kept beside their tree. -/
@[simp] theorem tree_tables (t : Tree) : t.tables.tree = t := rfl

/-- Kept tables give the children that the tree gives. -/
@[simp] theorem childrenOf_tables (t : Tree) (b : Block) :
    t.tables.childrenOf b = t.childrenOf b := rfl

/-- Kept tables give the frontiers that the tree gives. -/
@[simp] theorem frontier?_tables (t : Tree) (b : Block) :
    t.tables.frontier? b = t.frontier? b := rfl

end Tables
end Dominance
