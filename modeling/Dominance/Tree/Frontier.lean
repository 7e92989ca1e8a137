import Dominance.Tree.Order

/-!
# Dominance frontiers

The frontier of a block holds the blocks at which its dominance ends: those that it leads to, or that
something below it has in its own frontier, and that it does not immediately dominate. Frontiers are
computed from the leaves up.

The table is `dominance_frontiers` of a `DominatorTree`, and its entries are `dominance_frontier`.
-/

namespace Dominance
namespace Tree

/-- What belongs to the frontier of `x`, given the frontiers of what hangs below it. -/
def frontierOf (t : Tree) (dominated frontiers : Multimap Block Block) (x : Block) : List Block :=
  let own := (t.successors x).filter t.contains
  let below := (dominated.values x).flatMap frontiers.values
  (own ++ below).filter fun y => t.idom? y != some x

/-- The frontier of every reachable block; it may be empty. This is `dominance_frontiers`. -/
def frontiers (t : Tree) : Multimap Block Block :=
  let dominated := t.dominated
  t.reverseTopological.foldl
    (fun m x => m.insertMany x (t.frontierOf dominated m x)) .empty

/-- The frontier of a block, ascending, if the block is reachable. -/
def frontier? (t : Tree) (b : Block) : Option (List Block) := t.frontiers.get? b

end Tree
end Dominance
