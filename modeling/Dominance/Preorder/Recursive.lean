import Dominance.Flow

/-!
# Recursive depth-first search

The search by recursion that a lazy traversal performs with a stack. It carries the blocks seen so
far, in the order of their visits. Roots and successors are taken from the last to the first; of
repeated successors only the first counts. The search is given twice: by rules, which say nothing
about its depth, and as a function whose depth is bounded.
-/

namespace Dominance
namespace Flow

/-- The rules of the search: where the blocks of `seen` have been visited, visiting those of a list in
turn, with all that is reached from them, makes the visited blocks those of the last list. -/
inductive Explores (f : Flow) : List Block → List Block → List Block → Prop where
  | done (seen : List Block) : Explores f seen [] seen
  /-- A block seen before is not visited again. -/
  | skip {seen todo after : List Block} {b : Block} (h : b ∈ seen)
    (rest : Explores f seen todo after) : Explores f seen (b :: todo) after
  /-- Any other block comes next, then its successors, and then the rest of the list. -/
  | visit {seen todo inner after : List Block} {b : Block} (h : b ∉ seen)
    (below : Explores f (seen ++ [b]) (f.successors b).eraseDups.reverse inner)
    (rest : Explores f inner todo after) : Explores f seen (b :: todo) after

/-- Visit a block and all that is reached from it and not seen yet. The depth of the recursion is
bounded by `fuel`; a search that stays among `n` blocks is never deeper than `n`. -/
def explore (f : Flow) : Nat → List Block → Block → List Block
  | 0, seen, _ => seen
  | fuel + 1, seen, b =>
    if seen.contains b then seen
    else (f.successors b).eraseDups.reverse.foldl (f.explore fuel) (seen ++ [b])

/-- The blocks reached from given roots in the order of their visits, by recursion. -/
def recursivePreorder (f : Flow) (roots : List Block) : List Block :=
  (f.validRoots roots).reverse.foldl (f.explore f.blockCount) []

/-- A block seen before is not visited again. -/
theorem explore_of_mem {f : Flow} {fuel : Nat} {seen : List Block} {b : Block} (h : b ∈ seen) :
    f.explore fuel seen b = seen := by
  cases fuel with
  | zero => rfl
  | succ fuel => simp [explore, h]

end Flow
end Dominance
