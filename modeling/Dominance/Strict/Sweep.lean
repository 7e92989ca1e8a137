import Dominance.Sweep

/-!
# Strict passes

The passes over a numbering read their tables with a default for absent indices, and they give up
following links after a bounded number of steps. A strict pass does neither: it has no answer if an
index is absent, and none if a loop is not over when its fuel is. Otherwise it takes the steps of the
pass. An answer of a strict pass therefore says that every index was present and every loop came to
its end, and that the defaults and bounds of the pass made no difference.

The strict passes are `number`, `run`, `resolve`, `eval` and `compress` of the `LengauerTarjan`
solver.
-/

namespace Dominance
namespace Strict

/-- Write at a present index. -/
def write {α : Type} (a : Array α) (i : Nat) (x : α) : Option (Array α) :=
  if i < a.size then some (a.setIfInBounds i x) else none

/-! ### Numbers -/

/-- The blocks that a traversal still visits, the first `cap` of them if there is a cap. -/
def visits (f : Flow) : Nat → Option Nat → Preorder → Option (List Block)
  | 0, _, _ => none
  | fuel + 1, cap, p =>
    if cap = some 0 then some []
    else
      match Preorder.next? f p with
      | none => some []
      | some (b, q) => do
        let bs ← visits f fuel (cap.map (· - 1)) q
        some (b :: bs)

/-- Number the blocks met from given roots, the first `cap` of them if there is a cap. -/
def numbering (fuel : Nat) (f : Flow) (roots : List Block) (cap : Option Nat) : Option Numbering := do
  let order ← visits f fuel cap (Preorder.start f roots)
  some (Numbering.ofOrder f roots order)

/-- The block of a number; the virtual entry has none. -/
def blockOf (n : Numbering) : Nat → Option (Option Block)
  | 0 => some none
  | i + 1 => do
    let b ← n.order[i]?
    some (some b)

/-! ### The link and eval forest -/

/-- The numbers on the way up from `x` whose ancestor is not a root, the topmost first, put in front
of `path`. -/
def pathAbove (f : Forest) : Nat → Nat → List Nat → Option (List Nat)
  | 0, _, _ => none
  | fuel + 1, x, path => do
    match ← f.ancestor[x]? with
    | none => some path
    | some a =>
      match ← f.ancestor[a]? with
      | none => some path
      | some _ => pathAbove f fuel a (x :: path)

/-- Skip the ancestor of `y`. The label is written only if the skipped one is better. -/
def skip (f : Forest) (y : Nat) : Option Forest := do
  match ← f.ancestor[y]? with
  | none => some f
  | some a =>
    let upper ← f.label[a]?
    let own ← f.label[y]?
    let upperSemi ← f.semi[upper]?
    let ownSemi ← f.semi[own]?
    let label ← if upperSemi < ownSemi then write f.label y upper else some f.label
    let above ← f.ancestor[a]?
    let ancestor ← write f.ancestor y above
    some { f with label, ancestor }

/-- Compress the path above `v`. -/
def compress (fuel : Nat) (f : Forest) (v : Nat) : Option Forest := do
  let path ← pathAbove f fuel v []
  path.foldlM skip f

/-- The number of least semidominator on the path from `v` up to the root of its tree. -/
def eval (fuel : Nat) (f : Forest) (v : Nat) : Option (Nat × Forest) := do
  match ← f.ancestor[v]? with
  | none => some (v, f)
  | some _ =>
    let f ← compress fuel f v
    let u ← f.label[v]?
    some (u, f)

/-! ### The two passes -/

/-- Take the predecessor `v` into account. -/
def lower (fuel : Nat) (x : Forest × Nat) (v : Nat) : Option (Forest × Nat) := do
  let (u, forest) ← eval fuel x.1 v
  let found ← forest.semi[u]?
  some (forest, min x.2 found)

/-- Find a candidate for `v`, whose semidominator is `p`. -/
def resolve (fuel p : Nat) (s : Sweep) (v : Nat) : Option Sweep := do
  let (u, forest) ← eval fuel s.forest v
  let found ← forest.semi[u]?
  let own ← forest.semi[v]?
  let candidate := if found < own then u else p
  let idom ← write s.idom v candidate
  some ⟨forest, s.bucket, idom, s.resolved.push ⟨v, own, candidate⟩⟩

/-- The backward pass at number `w`. -/
def step (fuel : Nat) (n : Numbering) (s : Sweep) (w : Nat) : Option Sweep := do
  let p ← n.parent[w]?
  let preds ← n.preds[w]?
  let own ← s.forest.semi[w]?
  let (forest, least) ← preds.foldlM (lower fuel) (s.forest, own)
  let semi ← write forest.semi w least
  let ancestor ← write forest.ancestor w (some p)
  let bucket := s.bucket.insert least w
  (bucket.values p).foldlM (resolve fuel p)
    ⟨{ forest with semi, ancestor }, bucket.erase p, s.idom, s.resolved⟩

/-- The backward pass. -/
def backward (fuel : Nat) (n : Numbering) : Option Sweep :=
  (Sweep.countdown n.size).foldlM (step fuel n) (Sweep.start (n.size + 1))

/-- The forward pass at number `w`. -/
def settle (forest : Forest) (idom : Array Nat) (w : Nat) : Option (Array Nat) := do
  let d ← idom[w]?
  let semi ← forest.semi[w]?
  if d = semi then some idom
  else
    let above ← idom[d]?
    write idom w above

/-- Both passes. -/
def run (fuel : Nat) (n : Numbering) : Option Sweep := do
  let s ← backward fuel n
  let idom ← (List.range' 1 n.size).foldlM (settle s.forest) s.idom
  some { s with idom }

/-- The record of a resolution. -/
def event (n : Numbering) (r : Resolution) : Option Event := do
  let block ← blockOf n r.number
  let semi ← blockOf n r.semi
  let candidate ← blockOf n r.candidate
  some (.resolved block semi candidate)

end Strict
end Dominance
