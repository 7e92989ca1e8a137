import Dominance.Strict.Sweep
import Dominance.Tree.Build
import Dominance.Tree.Frontier

/-!
# Strict trees

The tables of a finished sweep, the order and the frontiers read from them, and the self-check. As for
strict passes, there is no answer if an index is absent or if a loop is not over when its fuel is.

The strict tables are those of `finish`, `topological_traversal`, `dominance_frontiers` and
`verify`.
-/

namespace Dominance
namespace Strict

/-! ### Finishing -/

/-- The head of the depth-first tree of position `i`. -/
def headStep (n : Numbering) (heads : Array Nat) (i : Nat) : Option (Array Nat) := do
  match ← n.parent[i + 1]? with
  | 0 => some heads
  | p + 1 =>
    let head ← heads[p]?
    write heads i head

/-- The heads of the depth-first trees, by position. -/
def heads (n : Numbering) : Option (Array Nat) :=
  (List.range n.size).foldlM (headStep n) (Array.range n.size)

/-- The parent of position `i`. -/
def parentOf (n : Numbering) (i : Nat) : Option (Option Nat) := do
  match ← n.parent[i + 1]? with
  | 0 => some none
  | p + 1 => some (some p)

/-- The place of position `i`. -/
def placeOf (heads : Array Nat) (s : Sweep) (isRoot : Bool) (i : Nat) : Option Tree.Place := do
  match ← s.idom[i + 1]? with
  | 0 =>
    if isRoot then some .root
    else
      let head ← heads[i]?
      some (.shared head)
  | d + 1 => some (.below d)

/-- The position that stands for the semidominator of position `i`. -/
def semiPosition (heads : Array Nat) (s : Sweep) (isRoot : Bool) (i : Nat) : Option Nat := do
  match ← s.forest.semi[i + 1]? with
  | 0 => if isRoot then some i else heads[i]?
  | v + 1 => some v

/-- Hang the block at a position, if it hangs anywhere. -/
def hang (order : Array Block) (idom : Std.ExtTreeMap Block Block) (x : Block × Tree.Place) :
    Option (Std.ExtTreeMap Block Block) :=
  match x.2.above? with
  | none => some idom
  | some d => do
    let b ← order[d]?
    some (idom.insert x.1 b)

/-- List position `i` below the position it hangs below, if any. -/
def adopt (children : Array (Array Nat)) (x : Tree.Place × Nat) : Option (Array (Array Nat)) :=
  match x.1.above? with
  | none => some children
  | some d => do
    let below ← children[d]?
    write children d (below.push x.2)

/-- The tables of a finished sweep. -/
def ofSweep (roots : List Block) (n : Numbering) (s : Sweep) : Option Tree := do
  let rootSet := Std.ExtTreeSet.ofList roots
  let blocks := n.order.toList.zipIdx
  let heads ← heads n
  let parent ← (List.range n.size).mapM (parentOf n)
  let semi ← blocks.mapM fun x => semiPosition heads s (rootSet.contains x.1) x.2
  let places ← blocks.mapM fun x => placeOf heads s (rootSet.contains x.1) x.2
  let idom ← (n.order.toList.zip places).foldlM (hang n.order) ∅
  let children ← places.zipIdx.foldlM adopt (Array.replicate n.size #[])
  some
    { roots := (roots.filter n.position.contains).eraseDups
      order := n.order
      position := n.position
      parent := parent.toArray
      semi := semi.toArray
      shared := (places.map Tree.Place.isShared).toArray
      targets := n.targets
      idom
      children }

/-- Finish a construction whose blocks are numbered. -/
def ofNumbering (fuel : Nat) (roots : List Block) (n : Numbering) : Option (Logged Tree) := do
  let s ← run fuel n
  let resolutions ← s.resolved.toList.mapM (event n)
  let t ← ofSweep roots n s
  some ⟨t, resolutions ++ [.treeBuilt t.roots.length t.size t.sharedCount]⟩

/-! ### Order and frontiers -/

/-- Those of the given positions whose block hangs nowhere. -/
def tops (t : Tree) : List Nat → Option (List Nat)
  | [] => some []
  | w :: ws => do
    let b ← t.order[w]?
    let rest ← tops t ws
    some (if t.idom.contains b then rest else w :: rest)

/-- Take the first position of the stack, put what hangs below it in front of the rest, and go on
until the stack is empty. -/
def descend (t : Tree) : Nat → List Nat → Option (List Block)
  | _, [] => some []
  | 0, _ :: _ => none
  | fuel + 1, w :: stack => do
    let b ← t.order[w]?
    let below ← t.children[w]?
    let bs ← descend t fuel (below.toList.reverse ++ stack)
    some (b :: bs)

/-- All blocks, each after its immediate dominator. -/
def topological (fuel : Nat) (t : Tree) : Option (List Block) := do
  let stack ← tops t (List.range t.size)
  descend t fuel stack

/-- The successors of a reachable block. -/
def successors (t : Tree) (b : Block) : Option (List Block) :=
  match t.position? b with
  | none => some []
  | some w => t.targets[w]?

/-- Add the frontier of `x`, given the frontiers of what hangs below it. -/
def addFrontier (t : Tree) (dominated frontiers : Multimap Block Block) (x : Block) :
    Option (Multimap Block Block) := do
  let targets ← successors t x
  let own := targets.filter t.contains
  let below := (dominated.values x).flatMap frontiers.values
  some (frontiers.insertMany x ((own ++ below).filter fun y => t.idom? y != some x))

/-- The frontier of every reachable block. -/
def frontiers (fuel : Nat) (t : Tree) : Option (Multimap Block Block) := do
  let order ← topological fuel t
  order.reverse.foldlM (addFrontier t t.dominated) .empty

/-! ### The way up and the self-check -/

/-- The way up from a block, itself included. -/
def climb (t : Tree) : Nat → Block → Option (List Block)
  | 0, _ => none
  | fuel + 1, b =>
    match t.idom? b with
    | none => some [b]
    | some d => do
      let bs ← climb t fuel d
      some (b :: bs)

/-- The dominators of a block, from itself up to its root. -/
def dominators (fuel : Nat) (t : Tree) (b : Block) : Option (List Block) :=
  if t.contains b then climb t fuel b else some []

/-- Whether `a` is met on the way up from a block. -/
def climbsTo (t : Tree) (a : Block) : Nat → Block → Option Bool
  | 0, _ => none
  | fuel + 1, b =>
    if b == a then some true
    else
      match t.idom? b with
      | none => some false
      | some d => climbsTo t a fuel d

/-- Whether `a` dominates `b`. -/
def dominates (fuel : Nat) (t : Tree) (a b : Block) : Option Bool :=
  if t.contains a && t.contains b then climbsTo t a fuel b else some false

/-- The first invariant that fails at position `w`, which holds block `b`. -/
def faultAt (fuel : Nat) (t : Tree) (w : Nat) (b : Block) : Option (Option Fault) := do
  let v ← t.semi[w]?
  if w < v then some (some (.lateSemidominator b v w))
  else
    match t.idom? b with
    | none => some (if t.isRoot b then none else some (.missingDominator b))
    | some d =>
      if t.isRoot b then some (some (.dominatedRoot b d))
      else if !(t.position? d).any (· < w) then some (some (.lateDominator b d))
      else
        let shared ← t.shared[w]?
        if shared then some (if t.isRoot d then none else some (.sharedBelowNonRoot b d))
        else
          let s ← t.order[v]?
          let holds ← dominates fuel t d s
          some (if holds then none else some (.semidominatorOutside b d s))

/-- The first fault at the given blocks and positions; what comes after it is not looked at. -/
def firstFault (fuel : Nat) (t : Tree) : List (Block × Nat) → Option (Option Fault)
  | [] => some none
  | (b, w) :: rest => do
    match ← faultAt fuel t w b with
    | some e => some (some e)
    | none => firstFault fuel t rest

/-- The fault of a given topological order, if it has one. -/
def orderFault (t : Tree) (order : List Block) : Option Fault :=
  if order.length = t.size then
    let index := Tree.lastIndex order
    t.idom.toList.findSome? fun (b, d) =>
      match index[d]?, index[b]? with
      | some i, some j => if i < j then none else some (.orderInverted b d)
      | _, _ => some (.orderInverted b d)
  else some (.orderLength order.length t.size)

/-- The first violated invariant, if there is one. The order is made only if no position has a
fault. -/
def fault (fuel : Nat) (t : Tree) : Option (Option Fault) := do
  match ← firstFault fuel t t.order.toList.zipIdx with
  | some e => some (some e)
  | none =>
    let order ← topological fuel t
    some (orderFault t order)

/-- Accept a tree that violates no invariant. -/
def verify (fuel : Nat) (t : Tree) : Option (Except Error Unit) := do
  match ← fault fuel t with
  | none => some (.ok ())
  | some e => some (.error (.malformed e none))

end Strict
end Dominance
