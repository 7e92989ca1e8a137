import Std.Data.ExtTreeSet
import Dominance.Sweep

/-!
# Dominator trees

A dominator tree tells for every reachable block its immediate dominator. With several roots it is a
forest: a block that several roots reach on disjoint paths has no dominator but itself, it is
*shared*, and it hangs below the root at the head of its depth-first tree. Tables are by position in
the order of visits; a block met more than once is known by its last position.

The tree is a `DominatorTree` with its queries; `ofSweep` is `finish` of the `LengauerTarjan`
solver, and `climb` is what a `DominatorIterator` goes through.
-/

namespace Dominance

/-- The tables of a dominator tree. -/
structure Tree where
  /-- The roots that were met, in the order given and without repetitions. -/
  roots : List Block
  /-- The blocks in the order of their visits. -/
  order : Array Block
  /-- The last position of each block in `order`. -/
  position : Std.ExtTreeMap Block Nat
  /-- The parent in the depth-first forest, by position; heads of trees have none. -/
  parent : Array (Option Nat)
  /-- The position of the semidominator, by position. -/
  semi : Array Nat
  /-- Whether a block is shared, by position. -/
  shared : Array Bool
  /-- The successors of each block, by position. -/
  targets : Array (List Block)
  /-- The immediate dominator of each block that has one. -/
  idom : Std.ExtTreeMap Block Block
  /-- The positions that hang below each position, ascending. -/
  children : Array (Array Nat)

namespace Tree

/-- Where a block hangs in the forest. -/
inductive Place where
  /-- A root hangs nowhere. -/
  | root
  /-- A shared block hangs below the head of its depth-first tree. -/
  | shared (head : Nat)
  /-- Any other block hangs below its immediate dominator. -/
  | below (dominator : Nat)
deriving DecidableEq, Repr

/-- The position that a place is below, if any. -/
def Place.above? : Place → Option Nat
  | root => none
  | shared h => some h
  | below d => some d

/-- Whether a place is that of a shared block. -/
def Place.isShared : Place → Bool
  | shared _ => true
  | _ => false

/-- The head of the depth-first tree of position `i`, once the heads of smaller positions are known. -/
def headStep (n : Numbering) (heads : Array Nat) (i : Nat) : Array Nat :=
  match n.parentOf (i + 1) with
  | 0 => heads
  | p + 1 =>
    let head := heads.getD p 0
    heads.setIfInBounds i head

/-- The heads of the depth-first trees, by position. -/
def heads (n : Numbering) : Array Nat :=
  (List.range n.size).foldl (headStep n) (Array.range n.size)

/-- The place of position `i`. An immediate dominator of number zero is the virtual entry. -/
def placeOf (heads : Array Nat) (s : Sweep) (isRoot : Bool) (i : Nat) : Place :=
  match s.idomOf (i + 1) with
  | 0 => if isRoot then .root else .shared (heads.getD i 0)
  | d + 1 => .below d

/-- The position that stands for the semidominator of position `i`. Where that is the virtual entry,
a root stands for itself and another block is represented by the head of its depth-first tree. -/
def semiPosition (heads : Array Nat) (s : Sweep) (isRoot : Bool) (i : Nat) : Nat :=
  match s.forest.semiOf (i + 1) with
  | 0 => if isRoot then i else heads.getD i 0
  | v + 1 => v

/-- Hang the block at a position, if it hangs anywhere. -/
def hang (order : Array Block) (idom : Std.ExtTreeMap Block Block) (x : Block × Place) :
    Std.ExtTreeMap Block Block :=
  match x.2.above?.bind (order[·]?) with
  | none => idom
  | some d => idom.insert x.1 d

/-- List position `i` below the position it hangs below, if any. -/
def adopt (children : Array (Array Nat)) (x : Place × Nat) : Array (Array Nat) :=
  match x.1.above? with
  | none => children
  | some d => children.modify d (·.push x.2)

/-- The tables of a finished sweep, in terms of blocks again. This is `finish`. -/
def ofSweep (roots : List Block) (n : Numbering) (s : Sweep) : Tree :=
  let heads := heads n
  let rootSet := Std.ExtTreeSet.ofList roots
  let blocks := n.order.toList.zipIdx
  let places := blocks.map fun (b, i) => placeOf heads s (rootSet.contains b) i
  { roots := (roots.filter n.position.contains).eraseDups
    order := n.order
    position := n.position
    parent := ((List.range n.size).map fun i =>
      match n.parentOf (i + 1) with
      | 0 => none
      | p + 1 => some p).toArray
    semi := (blocks.map fun (b, i) => semiPosition heads s (rootSet.contains b) i).toArray
    shared := (places.map Place.isShared).toArray
    targets := n.targets
    idom := (n.order.toList.zip places).foldl (hang n.order) ∅
    children := places.zipIdx.foldl adopt (Array.replicate n.size #[]) }

/-- The number of visits. -/
def size (t : Tree) : Nat := t.order.size

/-- The blocks that were visited. -/
def visited (t : Tree) : Std.ExtTreeSet Block := .ofList t.order.toList

/-- Whether nothing is reachable. -/
def isEmpty (t : Tree) : Bool := t.order.isEmpty

/-- Whether a block is reachable. -/
def contains (t : Tree) (b : Block) : Bool := t.position.contains b

/-- Whether a block is one of the roots that were met. -/
def isRoot (t : Tree) (b : Block) : Bool := t.roots.contains b

/-- The block at a position. -/
def blockAt? (t : Tree) (w : Nat) : Option Block := t.order[w]?

/-- The position of a block. This is `dfs_number`. -/
def position? (t : Tree) (b : Block) : Option Nat := t.position[b]?

/-- The parent of a block in the depth-first forest. This is `dfs_parent`. -/
def parent? (t : Tree) (b : Block) : Option Block := do
  let w ← t.position? b
  let p ← t.parent.getD w none
  t.blockAt? p

/-- The block that stands for the semidominator of a block. This is `semidominator`. -/
def semidominator? (t : Tree) (b : Block) : Option Block := do
  let w ← t.position? b
  let v ← t.semi[w]?
  t.blockAt? v

/-- The immediate dominator of a block. This is `immediate_dominator`. -/
def idom? (t : Tree) (b : Block) : Option Block := t.idom[b]?

/-- Whether a block is shared between roots. -/
def isShared (t : Tree) (b : Block) : Bool :=
  match t.position? b with
  | none => false
  | some w => t.shared.getD w false

/-- The number of shared positions. -/
def sharedCount (t : Tree) : Nat := t.shared.toList.countP (·)

/-- The successors of a reachable block. -/
def successors (t : Tree) (b : Block) : List Block :=
  match t.position? b with
  | none => []
  | some w => t.targets.getD w []

/-- The first `fuel` blocks of the way up from a block, itself included. -/
def climb (t : Tree) : Nat → Block → List Block
  | 0, _ => []
  | fuel + 1, b =>
    b :: match t.idom? b with
      | none => []
      | some d => t.climb fuel d

/-- No way up without repetitions is longer. -/
def heightBound (t : Tree) : Nat := t.idom.size + 1

/-- The dominators of a block, from itself up to its root; an unreachable block has none. -/
def dominators (t : Tree) (b : Block) : List Block :=
  if t.contains b then t.climb t.heightBound b else []

/-- Whether `a` is among the first `fuel` blocks of the way up from a block. -/
def climbsTo (t : Tree) (a : Block) : Nat → Block → Bool
  | 0, _ => false
  | fuel + 1, b =>
    b == a || match t.idom? b with
      | none => false
      | some d => t.climbsTo a fuel d

/-- Whether `a` dominates `b`. Unreachable blocks dominate nothing and are dominated by nothing. -/
def dominates (t : Tree) (a b : Block) : Bool :=
  t.contains a && t.contains b && t.climbsTo a t.heightBound b

/-- Whether `a` dominates `b` and is another block. -/
def strictlyDominates (t : Tree) (a b : Block) : Bool := a != b && t.dominates a b

/-- How many dominators a reachable block has beside itself. -/
def depth? (t : Tree) (b : Block) : Option Nat :=
  if t.contains b then some ((t.dominators b).length - 1) else none

/-- Each dominator with the blocks that it immediately dominates. This is `dominator_tree`. -/
def dominated (t : Tree) : Multimap Block Block :=
  t.order.toList.foldl (fun m b =>
    match t.idom? b with
    | none => m
    | some d => m.insert d b) .empty

/-- The blocks that a block immediately dominates, ascending. This is `children`. -/
def childrenOf (t : Tree) (b : Block) : List Block := t.dominated.values b

/-- All reachable blocks, ascending. -/
def reachable (t : Tree) : List Block := t.position.keys

/-- For every reachable block, ascending, its dominators, ascending. -/
def dominatorTable (t : Tree) : List (Block × List Block) :=
  t.reachable.map fun b => (b, (Std.ExtTreeSet.ofList (t.dominators b)).toList.filter t.contains)

/-- Searching the way up is the same as listing it and searching the list. -/
theorem climbsTo_eq (t : Tree) (a : Block) (fuel : Nat) (b : Block) :
    t.climbsTo a fuel b = (t.climb fuel b).contains a := by
  induction fuel generalizing b with
  | zero => rfl
  | succ fuel ih =>
    rw [climbsTo, climb, List.contains_cons]
    have h : (b == a) = (a == b) := by
      apply Bool.eq_iff_iff.mpr
      rw [beq_iff_eq, beq_iff_eq]
      exact eq_comm
    rw [h]
    congr 1
    split
    · rfl
    · exact ih _

/-- Dominance is membership in the list of dominators. -/
theorem dominates_eq (t : Tree) (a b : Block) :
    t.dominates a b = (t.contains a && (t.dominators b).contains a) := by
  unfold dominates dominators
  rw [Bool.and_assoc]
  congr 1
  split
  · next h => rw [h, Bool.true_and, climbsTo_eq]
  · next h =>
    rw [Bool.not_eq_true] at h
    rw [h]
    rfl

end Tree
end Dominance
