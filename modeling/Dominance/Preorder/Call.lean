import Dominance.Preorder

/-!
# Calls of a traversal

A traversal is lazy: a caller asks for one block after the other, in one of two ways, and may ask in
between whether a block is left and which edges have been taken. Calls come in any order. A call that
returns a block moves the traversal on, and no other call changes it.

The calls are `next`, `try_next`, `has_next` and `edges_taken` of a `DepthFirstPreorderIterator`.
-/

namespace Dominance
namespace Preorder

/-- What can be asked of a traversal. -/
inductive Call where
  | next
  | tryNext
  | hasNext
  | edgesTaken
deriving DecidableEq, Repr

/-- What a call replies. -/
inductive Reply where
  | next (block : Option Block)
  | tryNext (result : Except Error Block)
  | hasNext (left : Bool)
  | edgesTaken (edges : Std.ExtTreeSet Edge)

/-- The block that a reply returns, if any. -/
def Reply.block? : Reply → Option Block
  | next b => b
  | tryNext r => r.toOption
  | _ => none

/-- The blocks that replies have returned, oldest first. -/
def returned (replies : List Reply) : List Block := replies.filterMap Reply.block?

/-- Reply to a call. -/
def call (f : Flow) (p : Preorder) : Call → Reply × Preorder
  | .next =>
    match next? f p with
    | none => (.next none, p)
    | some (b, q) => (.next (some b), q)
  | .tryNext =>
    match tryNext f p with
    | .error e => (.tryNext (.error e), p)
    | .ok (b, q) => (.tryNext (.ok b), q)
  | .hasNext => (.hasNext p.hasNext, p)
  | .edgesTaken => (.edgesTaken p.taken, p)

/-- Reply to calls one after the other. -/
def calls (f : Flow) (p : Preorder) : List Call → List Reply × Preorder
  | [] => ([], p)
  | c :: cs =>
    let first := call f p c
    let others := calls f first.2 cs
    (first.1 :: others.1, others.2)

/-- The reply to a call when no block is left and these edges have been taken. -/
def Call.spent (taken : Std.ExtTreeSet Edge) : Call → Reply
  | next => .next none
  | tryNext => .tryNext (.error .exhausted)
  | hasNext => .hasNext false
  | edgesTaken => .edgesTaken taken

/-- Blocks are returned in the order of the replies. -/
@[simp] theorem returned_cons (r : Reply) (rs : List Reply) :
    returned (r :: rs) = r.block?.toList ++ returned rs := by
  cases h : r.block? <;> simp [returned, h]

/-- A call that finds the stack empty changes nothing. -/
theorem call_of_stack_eq_nil {f : Flow} {p : Preorder} (h : p.stack = []) (c : Call) :
    call f p c = (c.spent p.taken, p) := by
  cases c <;> simp [call, Call.spent, next?, tryNext, hasNext, h]

/-- A call that asks for a block gets the next one, if there is one. -/
theorem call_of_next {f : Flow} {p q : Preorder} {b : Block} (h : next? f p = some (b, q)) :
    call f p .next = (.next (some b), q) ∧ call f p .tryNext = (.tryNext (.ok b), q) := by
  simp [call, tryNext, h]

end Preorder
end Dominance
