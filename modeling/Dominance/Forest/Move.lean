import Dominance.Forest

/-!
# Moves in a forest

A forest is worked with in three ways: it is asked about a number, the semidominator of a number is
set, and a number is linked below another. Moves come in any order that keeps the forest a forest and
its labels right: a number has its semidominator before it is linked, and it is linked once, to a tree
other than its own.
-/

namespace Dominance
namespace Forest

/-- A use of a forest. -/
inductive Move where
  | ask (v : Nat)
  | setSemi (w s : Nat)
  | link (p w : Nat)
deriving DecidableEq, Repr

/-- The forest after a move. -/
def move (f : Forest) : Move → Forest
  | .ask v => (f.eval v).2
  | .setSemi w s => f.setSemi w s
  | .link p w => f.link p w

/-- The least semidominator that a move finds, if it asks for one. -/
def found? (f : Forest) : Move → Option Nat
  | .ask v => some (f.semiOf (f.eval v).1)
  | _ => none

/-- The least semidominators that moves find, made one after the other. -/
def found (f : Forest) : List Move → List Nat
  | [] => []
  | m :: ms => (f.found? m).toList ++ (f.move m).found ms

/-- The way up from `v` passes `r`; it begins with `v` itself. -/
inductive Passes (f : Forest) (r : Nat) : Nat → Prop where
  | refl : Passes f r r
  | up {v a : Nat} (hv : f.ancestorOf v = some a) (h : Passes f r a) : Passes f r v

/-- Whether a forest is ready for a move. -/
def Allows (f : Forest) : Move → Prop
  | .ask _ => True
  | .setSemi w _ => f.ancestorOf w = none
  | .link p w => w < f.ancestor.size ∧ f.ancestorOf w = none ∧ ¬f.Passes w p

/-- Whether a forest is ready for moves, each after those before it. -/
def AllowsAll (f : Forest) : List Move → Prop
  | [] => True
  | m :: ms => f.Allows m ∧ (f.move m).AllowsAll ms

end Forest
end Dominance
