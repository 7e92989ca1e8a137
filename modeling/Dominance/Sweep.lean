import Dominance.Forest
import Dominance.Multimap
import Dominance.Numbering

/-!
# Semidominators and immediate dominators, in numbers

The backward pass takes the numbers from the last to the first. For each it finds the semidominator,
puts the number into the bucket of that semidominator, links it below its parent, and resolves the
numbers that waited in the bucket of the parent. A resolved number has a candidate: its immediate
dominator, or a smaller number with the same one. The forward pass settles the candidates.

These are the two loops of `run` of the `LengauerTarjan` solver, with `resolve`, on its tables
`bucket` and `idom`.
-/

namespace Dominance

/-- One resolution of the backward pass: a number, its semidominator and its candidate. -/
structure Resolution where
  number : Nat
  semi : Nat
  candidate : Nat
deriving DecidableEq, Repr

/-- The state of the two passes. -/
structure Sweep where
  forest : Forest
  /-- Numbers that wait for the subtree of their semidominator to be linked. -/
  bucket : Multimap Nat Nat
  /-- Candidates, and later immediate dominators. -/
  idom : Array Nat
  /-- The resolutions made so far, oldest first. -/
  resolved : Array Resolution

namespace Sweep

/-- The state before the backward pass, for `count` numbers. -/
def start (count : Nat) : Sweep :=
  ⟨.isolated count, .empty, Array.replicate count 0, #[]⟩

/-- The immediate dominator or candidate of a number. -/
def idomOf (s : Sweep) (w : Nat) : Nat := s.idom.getD w 0

/-- Take the predecessor `v` into account: the least semidominator above it may be smaller. -/
def lower (x : Forest × Nat) (v : Nat) : Forest × Nat :=
  let (forest, least) := x
  let (u, forest) := forest.eval v
  let found := forest.semiOf u
  (forest, min least found)

/-- Find a candidate for `v`, whose semidominator is `p`. -/
def resolve (p : Nat) (s : Sweep) (v : Nat) : Sweep :=
  let { forest, bucket, idom, resolved } := s
  let (u, forest) := forest.eval v
  let candidate := if forest.semiOf u < forest.semiOf v then u else p
  let resolution := ⟨v, forest.semiOf v, candidate⟩
  { forest, bucket
    idom := idom.setIfInBounds v candidate
    resolved := resolved.push resolution }

/-- The backward pass at number `w`. This is the body of the first loop of `run`. -/
def step (n : Numbering) (s : Sweep) (w : Nat) : Sweep :=
  let { forest, bucket, idom, resolved } := s
  let p := n.parentOf w
  let own := forest.semiOf w
  let (forest, least) := (n.predsOf w).foldl lower (forest, own)
  let forest := (forest.setSemi w least).link p w
  let bucket := bucket.insert least w
  let due := bucket.values p
  due.foldl (resolve p) { forest, bucket := bucket.erase p, idom, resolved }

/-- A resolution in terms of the parts of the state before it. -/
theorem resolve_def (p : Nat) (s : Sweep) (v : Nat) :
    resolve p s v =
      let r := s.forest.eval v
      let candidate := if r.2.semiOf r.1 < r.2.semiOf v then r.1 else p
      ⟨r.2, s.bucket, s.idom.setIfInBounds v candidate,
        s.resolved.push ⟨v, r.2.semiOf v, candidate⟩⟩ := rfl

/-- A step in terms of the parts of the state before it. -/
theorem step_def (n : Numbering) (s : Sweep) (w : Nat) :
    step n s w =
      let p := n.parentOf w
      let r := (n.predsOf w).foldl lower (s.forest, s.forest.semiOf w)
      let bucket := s.bucket.insert r.2 w
      (bucket.values p).foldl (resolve p)
        ⟨(r.1.setSemi w r.2).link p w, bucket.erase p, s.idom, s.resolved⟩ := rfl

/-- The numbers from `count` down to one. -/
def countdown (count : Nat) : List Nat := (List.range' 1 count).reverse

/-- The backward pass. This is the first loop of `run`. -/
def backward (n : Numbering) : Sweep :=
  (countdown n.size).foldl (step n) (start (n.size + 1))

/-- The forward pass at number `w`: a candidate other than the semidominator passes on its own
immediate dominator, which is settled already. -/
def settle (forest : Forest) (idom : Array Nat) (w : Nat) : Array Nat :=
  let d := idom.getD w 0
  if d = forest.semiOf w then idom
  else
    let above := idom.getD d 0
    idom.setIfInBounds w above

/-- The forward pass at a number, in terms of the table before it. -/
theorem settle_def (forest : Forest) (idom : Array Nat) (w : Nat) :
    settle forest idom w =
      if idom.getD w 0 = forest.semiOf w then idom
      else idom.setIfInBounds w (idom.getD (idom.getD w 0) 0) := rfl

/-- The forward pass. This is the second loop of `run`. -/
def forward (n : Numbering) (s : Sweep) : Sweep :=
  let { forest, bucket, idom, resolved } := s
  { forest, bucket, idom := (List.range' 1 n.size).foldl (settle forest) idom, resolved }

/-- Both passes. -/
def run (n : Numbering) : Sweep := forward n (backward n)

/-- The records of the passes: one for each resolution. -/
def events (n : Numbering) (s : Sweep) : List Event :=
  s.resolved.toList.map fun r =>
    .resolved (n.block? r.number) (n.block? r.semi) (n.block? r.candidate)

end Sweep
end Dominance
