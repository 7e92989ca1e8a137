import Std.Data.ExtTreeMap
import Std.Data.ExtTreeSet
import Dominance.Multimap
import Dominance.Preorder

/-!
# Depth-first numbers

A numbering lists the blocks met by a traversal and gives each its number. Number zero is a
virtual entry that leads to every root; the block at position `i` of the order has number `i + 1`.
Parents and predecessors are given in these numbers. A block that a traversal meets more than once
is known by its last position.

This is `number` of the `LengauerTarjan` solver: `order` is its table `vertex`, `position` is
`dfnum`, and `preds` is `pred`.
-/

namespace Dominance

/-- What is noted about blocks while an order is gone through. -/
structure Survey where
  /-- How many blocks have been gone through. -/
  size : Nat
  /-- The last position of each block gone through. -/
  position : Std.ExtTreeMap Block Nat
  /-- For each block, the last block that led to it before it was gone through itself. -/
  finder : Std.ExtTreeMap Block Block
  /-- For each block, the blocks that lead to it. -/
  sources : Multimap Block Block

namespace Survey

/-- Nothing has been gone through. -/
def empty : Survey := ⟨0, ∅, ∅, .empty⟩

/-- Note that `b` leads to `c`. -/
def note (b : Block) (s : Survey) (c : Block) : Survey :=
  { s with
    sources := s.sources.insert c b
    finder := if s.position.contains c then s.finder else s.finder.insert c b }

/-- Go through one more block and all that it leads to. -/
def extend (f : Flow) (s : Survey) (b : Block) : Survey :=
  (f.successors b).foldl (note b)
    { s with size := s.size + 1, position := s.position.insert b s.size }

/-- Go through a whole order. -/
def ofOrder (f : Flow) (order : List Block) : Survey := order.foldl (extend f) empty

/-- The number of the block that found `b`; zero if the virtual entry did. -/
def parentNumber (s : Survey) (b : Block) : Nat :=
  match s.finder[b]?.bind (s.position[·]?) with
  | some p => p + 1
  | none => 0

/-- The numbers of the blocks that lead to `b`, by block. -/
def sourceNumbers (s : Survey) (b : Block) : List Nat :=
  (s.sources.values b).filterMap fun p => s.position[p]?.map (· + 1)

end Survey

/-- The blocks met by a traversal with their numbers. Tables in numbers have an entry for the
virtual entry, which is number zero. -/
structure Numbering where
  /-- The blocks in the order of their visits. -/
  order : Array Block
  /-- The last position of each block in `order`. -/
  position : Std.ExtTreeMap Block Nat
  /-- The parent of each number in the depth-first forest. -/
  parent : Array Nat
  /-- The predecessors of each number; that of a root include the virtual entry. -/
  preds : Array (List Nat)
  /-- The successors of each block, by position in `order`. -/
  targets : Array (List Block)

namespace Numbering

/-- The numbering of a given order of visits. -/
def ofOrder (f : Flow) (roots : List Block) (order : List Block) : Numbering :=
  let s := Survey.ofOrder f order
  let rootSet := Std.ExtTreeSet.ofList roots
  { order := order.toArray
    position := s.position
    parent := (0 :: order.map s.parentNumber).toArray
    preds := ([] :: order.map fun b =>
      s.sourceNumbers b ++ if rootSet.contains b then [0] else []).toArray
    targets := (order.map f.successors).toArray }

/-- Number the blocks met from given roots, the first `cap` of them if there is a cap. This is
`number`. -/
def ofRoots (f : Flow) (roots : List Block) (cap : Option Nat) : Numbering :=
  let order := f.preorder roots
  ofOrder f roots (match cap with
    | none => order
    | some k => order.take k)

/-- How many positions there are. -/
def size (n : Numbering) : Nat := n.order.size

/-- The block of a number; the virtual entry has none. -/
def block? (n : Numbering) : Nat → Option Block
  | 0 => none
  | i + 1 => n.order[i]?

/-- The parent of a number. -/
def parentOf (n : Numbering) (w : Nat) : Nat := n.parent.getD w 0

/-- The predecessors of a number. -/
def predsOf (n : Numbering) (w : Nat) : List Nat := n.preds.getD w []

/-- There are as many numbers as blocks in the order, the virtual entry apart. -/
@[simp] theorem size_ofOrder (f : Flow) (roots order : List Block) :
    (ofOrder f roots order).size = order.length := by
  simp [size, ofOrder]

end Numbering
end Dominance
