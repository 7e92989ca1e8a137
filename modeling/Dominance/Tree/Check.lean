import Dominance.Error
import Dominance.Tree.Order

/-!
# The self-check

The tables of a tree are checked against the invariants of dominance, position by position, and then
against its topological order. The first violated invariant is reported.

The checks and their order are those of `verify` of a `DominatorTree`.
-/

namespace Dominance
namespace Tree

/-- The first invariant that fails at position `w`, which holds block `b`. -/
def faultAt (t : Tree) (w : Nat) (b : Block) : Option Fault :=
  let v := t.semi.getD w 0
  if w < v then some (.lateSemidominator b v w)
  else
    match t.idom? b with
    | none => if t.isRoot b then none else some (.missingDominator b)
    | some d =>
      if t.isRoot b then some (.dominatedRoot b d)
      else if !(t.position? d).any (· < w) then some (.lateDominator b d)
      else if t.shared.getD w false then
        if t.isRoot d then none else some (.sharedBelowNonRoot b d)
      else
        match t.blockAt? v with
        | none => none
        | some s => if t.dominates d s then none else some (.semidominatorOutside b d s)

/-- Whether the topological order has as many blocks as there are visits. -/
def orderLengthFault (t : Tree) : Option Fault :=
  let k := t.topological.length
  if k = t.size then none else some (.orderLength k t.size)

/-- The last index of each block of a list. -/
def lastIndex (bs : List Block) : Std.ExtTreeMap Block Nat :=
  bs.zipIdx.foldl (fun m (b, i) => m.insert b i) ∅

/-- The first block, ascending, that the topological order does not place after its immediate
dominator. -/
def orderFault (t : Tree) : Option Fault :=
  let index := lastIndex t.topological
  t.idom.toList.findSome? fun (b, d) =>
    match index[d]?, index[b]? with
    | some i, some j => if i < j then none else some (.orderInverted b d)
    | _, _ => some (.orderInverted b d)

/-- The first violated invariant, if there is one. -/
def fault? (t : Tree) : Option Fault :=
  match t.order.toList.zipIdx.findSome? fun (b, w) => t.faultAt w b with
  | some e => some e
  | none =>
    match t.orderLengthFault with
    | some e => some e
    | none => t.orderFault

/-- Accept a tree that violates no invariant. -/
def verify (t : Tree) : Except Error Unit :=
  match t.fault? with
  | none => .ok ()
  | some e => .error (.malformed e none)

end Tree
end Dominance
