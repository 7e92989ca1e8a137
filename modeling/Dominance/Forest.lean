/-!
# The link and eval forest

Numbers are linked below their parents one after the other. `eval` asks for the number with the
least semidominator on the path from a number up to, and without, the root of its tree. Paths are
compressed on the way: afterwards a number hangs directly below the root, and its label remembers
the answer for the part of the path that was skipped.

These are `link`, `eval` and `compress` of the `LengauerTarjan` solver, on its tables `semi`,
`ancestor` and `label`.
-/

namespace Dominance

/-- A forest of numbers with the semidominators known so far. -/
structure Forest where
  /-- The least semidominator found for each number; initially the number itself. -/
  semi : Array Nat
  /-- The next number on the way up; roots of the forest have none. -/
  ancestor : Array (Option Nat)
  /-- A number of least semidominator on the way up that has been skipped. -/
  label : Array Nat

namespace Forest

/-- The forest of `count` numbers in which nothing is linked. -/
def isolated (count : Nat) : Forest :=
  ⟨Array.range count, Array.replicate count none, Array.range count⟩

/-- The semidominator known for a number. -/
def semiOf (f : Forest) (v : Nat) : Nat := f.semi.getD v 0

/-- The next number on the way up. -/
def ancestorOf (f : Forest) (v : Nat) : Option Nat := f.ancestor.getD v none

/-- The label of a number. -/
def labelOf (f : Forest) (v : Nat) : Nat := f.label.getD v 0

/-- Set the semidominator of a number. -/
def setSemi (f : Forest) (w s : Nat) : Forest := { f with semi := f.semi.setIfInBounds w s }

/-- Hang `w` below `p`. -/
def link (f : Forest) (p w : Nat) : Forest :=
  { f with ancestor := f.ancestor.setIfInBounds w (some p) }

/-- The numbers on the way up from `x` whose ancestor is not a root, the topmost first, put in front
of `path`. At most `fuel` numbers are collected. -/
def pathAbove (f : Forest) : Nat → Nat → List Nat → List Nat
  | 0, _, path => path
  | fuel + 1, x, path =>
    match f.ancestorOf x with
    | none => path
    | some a =>
      match f.ancestorOf a with
      | none => path
      | some _ => f.pathAbove fuel a (x :: path)

/-- Skip the ancestor of `y`, whose own ancestor must have been skipped before. -/
def skip (f : Forest) (y : Nat) : Forest :=
  match f.ancestorOf y with
  | none => f
  | some a =>
    let best := if f.semiOf (f.labelOf a) < f.semiOf (f.labelOf y) then f.labelOf a else f.labelOf y
    let above := f.ancestorOf a
    { f with
      label := f.label.setIfInBounds y best
      ancestor := f.ancestor.setIfInBounds y above }

/-- Compress the path above `v`. A path without repetitions has no more numbers than the forest. -/
def compress (f : Forest) (v : Nat) : Forest :=
  (f.pathAbove f.ancestor.size v []).foldl skip f

/-- The number of least semidominator on the path from `v` up to the root of its tree, which is not
part of the path. A root is its own answer. -/
def eval (f : Forest) (v : Nat) : Nat × Forest :=
  match f.ancestorOf v with
  | none => (v, f)
  | some _ =>
    let f := f.compress v
    (f.labelOf v, f)

/-- Reading by default after a write. -/
theorem getD_setIfInBounds {α : Type} (a : Array α) (i j : Nat) (x d : α) :
    (a.setIfInBounds i x).getD j d = if i = j ∧ i < a.size then x else a.getD j d := by
  rw [Array.getD_eq_getD_getElem?, Array.getD_eq_getD_getElem?, Array.getElem?_setIfInBounds]
  by_cases h : i = j
  · subst h
    by_cases hi : i < a.size
    · simp [hi]
    · simp [hi]
  · simp [h]

/-- At first every number is its own semidominator. -/
theorem semiOf_isolated {count v : Nat} (h : v < count) : (isolated count).semiOf v = v := by
  simp [semiOf, isolated, Array.getD_eq_getD_getElem?, h]

/-- At first every number is its own label. -/
theorem labelOf_isolated {count v : Nat} (h : v < count) : (isolated count).labelOf v = v := by
  simp [labelOf, isolated, Array.getD_eq_getD_getElem?, h]

/-- At first nothing is linked. -/
@[simp] theorem ancestorOf_isolated (count v : Nat) : (isolated count).ancestorOf v = none := by
  rw [ancestorOf, isolated, Array.getD_eq_getD_getElem?, Array.getElem?_replicate]
  split <;> rfl

/-- Setting a semidominator changes that number only. -/
theorem semiOf_setSemi (f : Forest) (w s v : Nat) :
    (f.setSemi w s).semiOf v = if w = v ∧ w < f.semi.size then s else f.semiOf v :=
  getD_setIfInBounds f.semi w v s 0

/-- Linking gives an ancestor to that number only. -/
theorem ancestorOf_link (f : Forest) (p w v : Nat) :
    (f.link p w).ancestorOf v = if w = v ∧ w < f.ancestor.size then some p else f.ancestorOf v :=
  getD_setIfInBounds f.ancestor w v (some p) none

/-- Skipping an ancestor leaves the table of semidominators. -/
@[simp] theorem semi_skip (f : Forest) (y : Nat) : (f.skip y).semi = f.semi := by
  unfold skip
  split <;> rfl

/-- Compression leaves the table of semidominators. -/
@[simp] theorem semi_compress (f : Forest) (v : Nat) : (f.compress v).semi = f.semi := by
  unfold compress
  generalize f.pathAbove f.ancestor.size v [] = path
  induction path generalizing f with
  | nil => rfl
  | cons y path ih => rw [List.foldl_cons, ih, semi_skip]

/-- Asking changes no semidominator. -/
@[simp] theorem semi_eval (f : Forest) (v : Nat) : (f.eval v).2.semi = f.semi := by
  unfold eval
  split <;> simp

end Forest
end Dominance
