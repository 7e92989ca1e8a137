import Dominance.Block

/-!
# Errors

An error is the cause of a refusal. The invariants that a computed tree can violate are faults; each
has one constructor, so that a check says which invariant failed and for which blocks.

The causes and their texts are those of `Error`; a fault is what `verify` of a `DominatorTree`
complains of.
-/

namespace Dominance

/-- A violated invariant of a computed dominator tree. -/
inductive Fault where
  /-- The semidominator is numbered after the block. -/
  | lateSemidominator (block : Block) (semi number : Nat)
  /-- A reachable block that is no root lacks an immediate dominator. -/
  | missingDominator (block : Block)
  /-- A root has an immediate dominator. -/
  | dominatedRoot (block dominator : Block)
  /-- The immediate dominator is not numbered before the block. -/
  | lateDominator (block dominator : Block)
  /-- A shared block hangs below a block that is no root. -/
  | sharedBelowNonRoot (block dominator : Block)
  /-- The immediate dominator does not dominate the semidominator. -/
  | semidominatorOutside (block dominator semi : Block)
  /-- The topological order leaves blocks out or repeats them. -/
  | orderLength (actual expected : Nat)
  /-- The topological order places a block before its immediate dominator. -/
  | orderInverted (block dominator : Block)
  /-- A fault described in words only. -/
  | described (text : String)
deriving DecidableEq

/-- The text of a fault. -/
def Fault.message : Fault → String
  | lateSemidominator b s w =>
    "semidominator of " ++ b.name ++ " is numbered " ++ toString s ++
      " but the block is numbered " ++ toString w
  | missingDominator b => "reachable block " ++ b.name ++ " has no immediate dominator"
  | dominatedRoot b d => "root " ++ b.name ++ " has immediate dominator " ++ d.name
  | lateDominator b d =>
    "immediate dominator " ++ d.name ++ " of " ++ b.name ++ " is not numbered before it"
  | sharedBelowNonRoot b d =>
    "shared block " ++ b.name ++ " hangs below " ++ d.name ++ ", which is not a root"
  | semidominatorOutside b d s =>
    "immediate dominator " ++ d.name ++ " of " ++ b.name ++
      " does not dominate its semidominator " ++ s.name
  | orderLength k n =>
    "topological order has " ++ toString k ++ " blocks, expected " ++ toString n
  | orderInverted b d =>
    "topological order places " ++ b.name ++ " before its immediate dominator " ++ d.name
  | described t => t

/-- A place in a source text. -/
structure Site where
  file : String
  line : Nat
deriving DecidableEq

/-- The cause of a refusal. A malformed tree carries its fault and, where one is known, the place
that noticed it. -/
inductive Error where
  /-- A traversal was asked for a block after its last one. -/
  | exhausted
  /-- A construction was given no root. -/
  | noRoots
  /-- A block is named that the graph does not have. -/
  | invalidBlock (block : Block)
  /-- More blocks are reachable than the limit allows. -/
  | tooManyBlocks (limit : Nat)
  /-- A method body without blocks has no dominators. -/
  | emptyBody
  /-- A complaint about a graph in words only. -/
  | graph (text : String)
  /-- A computed tree violates an invariant. -/
  | malformed (fault : Fault) (site : Option Site)
deriving DecidableEq

/-- The text of an error. -/
def Error.message : Error → String
  | exhausted => "Depth-first iterator is exhausted"
  | noRoots => "At least one root block is required"
  | invalidBlock b => "Block " ++ b.name ++ " is not part of the graph"
  | tooManyBlocks k => "Flowgraph exceeds the maximum of " ++ toString k ++ " reachable blocks"
  | emptyBody => "Cannot compute dominators of an empty CFG"
  | graph t => t
  | malformed f none => "Malformed - " ++ f.message
  | malformed f (some s) => "Malformed - " ++ s.file ++ ":" ++ toString s.line ++ ": " ++ f.message

end Dominance
