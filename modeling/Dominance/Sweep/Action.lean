import Dominance.Forest.Move
import Dominance.Sweep

/-!
# The backward pass, action by action

At each number the backward pass asks about the predecessors, sets the semidominator, puts the number
into a bucket and links it; then it takes out the bucket of the parent and resolves what was in it. The
pass as a whole is one list of such actions, and a moment of the pass is the state after a first part of
the list.

The actions are those of the first loop of `run` of the `LengauerTarjan` solver.
-/

namespace Dominance
namespace Sweep

/-- A single action of the backward pass. -/
inductive Action where
  /-- Ask for the least semidominator above a predecessor. -/
  | ask (v : Nat)
  /-- Set the semidominator of `w`. -/
  | setSemi (w s : Nat)
  /-- Put `w` into the bucket of `p`. -/
  | await (p w : Nat)
  /-- Hang `w` below `p`. -/
  | link (p w : Nat)
  /-- Take out the bucket of `p`. -/
  | release (p : Nat)
  /-- Find a candidate for `v`, which was in the bucket of `p`. -/
  | resolve (p v : Nat)
deriving DecidableEq, Repr

namespace Action

/-- The bucket and the number put into it. -/
def awaiting? : Action → Option (Nat × Nat)
  | await p w => some (p, w)
  | _ => none

/-- The number that is linked. -/
def linked? : Action → Option Nat
  | link _ w => some w
  | _ => none

/-- The number that is resolved. -/
def resolved? : Action → Option Nat
  | resolve _ v => some v
  | _ => none

/-- What an action does in the forest. -/
def moves : Action → List Forest.Move
  | ask v => [.ask v]
  | setSemi w s => [.setSemi w s]
  | link p w => [.link p w]
  | resolve _ v => [.ask v]
  | _ => []

end Action

/-- The state after an action. -/
def perform (s : Sweep) : Action → Sweep
  | .ask v => { s with forest := (s.forest.eval v).2 }
  | .setSemi w least => { s with forest := s.forest.setSemi w least }
  | .await p w => { s with bucket := s.bucket.insert p w }
  | .link p w => { s with forest := s.forest.link p w }
  | .release p => { s with bucket := s.bucket.erase p }
  | .resolve p v => resolve p s v

/-- The actions at number `w`. -/
def actionsAt (n : Numbering) (s : Sweep) (w : Nat) : List Action :=
  let p := n.parentOf w
  let least := ((n.predsOf w).foldl lower (s.forest, s.forest.semiOf w)).2
  let due := (s.bucket.insert least w).values p
  (n.predsOf w).map .ask ++
    (.setSemi w least :: .await least w :: .link p w :: .release p :: due.map (.resolve p))

/-- The actions at numbers in turn. -/
def actionsFrom (n : Numbering) (s : Sweep) : List Nat → List Action
  | [] => []
  | w :: ws => actionsAt n s w ++ actionsFrom n (step n s w) ws

/-- The actions of the backward pass. -/
def actions (n : Numbering) : List Action := actionsFrom n (start (n.size + 1)) (countdown n.size)

/-- The state of the backward pass after its first actions. -/
def moment (n : Numbering) (done : List Action) : Sweep := done.foldl perform (start (n.size + 1))

/-- The numbers that actions link. -/
def linked (done : List Action) : List Nat := done.filterMap Action.linked?

end Sweep
end Dominance
