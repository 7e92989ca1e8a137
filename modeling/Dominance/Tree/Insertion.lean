import Dominance.Tree.Basic

/-!
# Insertion after the immediate dominator

The order obtained by going through the visits and inserting each block directly after its immediate
dominator, or at the end if it has none.
-/

namespace Dominance

/-- Insert `b` directly after the first `d`, or at the end if there is none. -/
def insertAfter (d b : Block) : List Block → List Block
  | [] => [b]
  | x :: xs => if x = d then x :: b :: xs else x :: insertAfter d b xs

/-- Insert one block into the order built so far. -/
def Tree.place (t : Tree) (xs : List Block) (b : Block) : List Block :=
  match t.idom? b with
  | none => xs ++ [b]
  | some d => insertAfter d b xs

/-- The order built by inserting the blocks one after the other. -/
def Tree.insertionOrder (t : Tree) : List Block := t.order.toList.foldl t.place []

end Dominance
