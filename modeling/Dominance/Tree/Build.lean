import Dominance.Config
import Dominance.Error
import Dominance.Tree.Check

/-!
# Building dominator trees

A tree is built from a numbering by the two passes of a sweep. The records of a construction are, in
this order, the roots that were left out, the resolutions of the backward pass, and the completion.
A configured construction may refuse its roots, the number of reachable blocks, or its own result.

The constructions are those of a `DominatorTree`: `build` is `compute`, `ofRoots` is `with_roots`
and `from_flowgraph`, and `configured` is `with_config`.
-/

namespace Dominance
namespace Tree

/-- Finish a construction whose blocks are numbered. -/
def ofNumbering (roots : List Block) (n : Numbering) : Logged Tree :=
  let s := Sweep.run n
  let t := ofSweep roots n s
  ⟨t, s.events n ++ [.treeBuilt t.roots.length t.size t.sharedCount]⟩

/-- Build the tree of all blocks that the roots reach. This is `compute`. -/
def build (f : Flow) (roots : List Block) : Logged Tree := do
  Logged.record (Preorder.startEvents f roots)
  ofNumbering roots (Numbering.ofRoots f roots none)

/-- Build the tree of all blocks that the roots reach; at least one root is required. This is
`with_roots`. -/
def ofRoots (f : Flow) (roots : List Block) : Logged (Except Error Tree) :=
  if roots.isEmpty then pure (.error .noRoots)
  else do
    let t ← build f roots
    pure (.ok t)

/-- The first complaint about roots: there is none, or one is not part of the graph. -/
def rootError? (f : Flow) (roots : List Block) : Option Error :=
  if roots.isEmpty then some .noRoots
  else (roots.find? (!f.has ·)).map .invalidBlock

/-- Build a tree under given settings. This is `with_config`. -/
def configured (f : Flow) (roots : List Block) (c : Config) : Logged (Except Error Tree) :=
  match if c.checkRoots then rootError? f roots else none with
  | some e => pure (.error e)
  | none => do
    Logged.record (Preorder.startEvents f roots)
    let n := Numbering.ofRoots f roots c.visitCap
    if c.refuses n.size then pure (.error (.tooManyBlocks c.maxBlocks))
    else do
      let t ← ofNumbering roots n
      if c.checkResult then
        match t.verify with
        | .error e => pure (.error e)
        | .ok () => pure (.ok t)
      else pure (.ok t)

end Tree
end Dominance
