import Dominance.BlockSet
import Dominance.Strict.Sweep

/-!
# Strict sets of blocks

The calls of a set of blocks as they are made on its words, by masks. A call has no result if the word
of its block is absent.

The calls are `insert` and `contains` of a `BlockSet`.
-/

namespace Dominance
namespace Strict

/-- The mask of an index in its word. -/
def mask (i : Nat) : BitVec 64 := 1#64 <<< (i % 64)

/-- Insert a block, and tell whether it is a new member. -/
def insertBlock (s : BlockSet) (b : Block) : Option (Bool × BlockSet) :=
  if s.capacity ≤ b.index then some (false, s)
  else do
    let word ← s.words[b.index / 64]?
    let words ← write s.words (b.index / 64) (word ||| mask b.index)
    some (word &&& mask b.index == 0, { s with words })

/-- Whether a block is a member. -/
def containsBlock (s : BlockSet) (b : Block) : Option Bool :=
  if b.index < s.capacity then do
    let word ← s.words[b.index / 64]?
    some (word &&& mask b.index != 0)
  else some false

end Strict
end Dominance
