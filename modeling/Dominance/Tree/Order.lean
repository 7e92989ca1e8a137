import Dominance.Tree.Basic

/-!
# The topological order

Every block comes after its immediate dominator. Blocks that hang nowhere are taken by position; each
is followed by what hangs below it, the greatest position first, so that the order is the one obtained
by inserting each block, in the order of visits, directly after its immediate dominator.

The two orders are `topological_traversal` and `reverse_topological_traversal` of a `DominatorTree`.
-/

namespace Dominance
namespace Tree

/-- The positions whose block hangs nowhere, ascending. -/
def tops (t : Tree) : List Nat :=
  (List.range t.size).filter fun w =>
    match t.blockAt? w with
    | none => false
    | some b => !t.idom.contains b

/-- Take the first position of the stack, put what hangs below it in front of the rest, and go on;
at most `fuel` positions are taken. -/
def descend (t : Tree) : Nat → List Nat → List Nat
  | 0, _ => []
  | _ + 1, [] => []
  | fuel + 1, w :: stack =>
    w :: t.descend fuel ((t.children.getD w #[]).toList.reverse ++ stack)

/-- All blocks, each after its immediate dominator. No position is taken twice. This is
`topological_traversal`. -/
def topological (t : Tree) : List Block := (t.descend t.size t.tops).filterMap t.blockAt?

/-- All blocks, each before its immediate dominator. -/
def reverseTopological (t : Tree) : List Block := t.topological.reverse

end Tree
end Dominance
