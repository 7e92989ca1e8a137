import Std.Data.ExtTreeSet
import Dominance.BlockSet
import Dominance.Error
import Dominance.Event
import Dominance.Flow

/-!
# Lazy depth-first traversal

A traversal keeps a stack of blocks to visit, the blocks visited so far and the edges taken so far.
A step visits the block on top of the stack and pushes its unvisited successors, each edge at most
once. Blocks past the block count are never marked as visited, so such a block is met once for each
edge that leads to it. A traversal ends because every step uses up a pushed block and every push
uses up an edge; `pending` counts both.

A traversal is a `DepthFirstPreorderIterator`: `start` is its `new`, `next?` its `next`, `settle`
its `discard_visited`, and `taken` what `edges_taken` shows. The whole traversal is `preorder`.
-/

namespace Dominance

/-- The state of a depth-first traversal, between two visits. -/
structure Preorder where
  /-- Blocks to visit, the next one first. -/
  stack : List Block
  /-- Blocks visited so far, as far as the graph has them. -/
  visited : BlockSet
  /-- Edges along which a block was pushed. -/
  taken : Std.ExtTreeSet Edge

namespace Preorder

/-- Begin at the roots that are part of the graph; the last one is visited first. -/
def start (f : Flow) (roots : List Block) : Preorder :=
  ⟨(f.validRoots roots).reverse, .empty f.blockCount, ∅⟩

/-- The records of beginning a traversal: one for each root that the graph does not have. -/
def startEvents (f : Flow) (roots : List Block) : List Event :=
  (f.invalidRoots roots).map (.rootIgnored · f.blockCount)

/-- Push a successor of a block, unless it has been visited or the edge has been taken. -/
def offer (b : Block) (p : Preorder) (c : Block) : Preorder :=
  if p.visited.contains c || p.taken.contains ⟨b, c⟩ then p
  else { p with stack := c :: p.stack, taken := p.taken.insert ⟨b, c⟩ }

/-- Drop visited blocks from the top of the stack. This is `discard_visited`. -/
def settle (p : Preorder) : Preorder := { p with stack := p.stack.dropWhile p.visited.contains }

/-- Visit a block whose stack entry has been removed. -/
def visit (f : Flow) (p : Preorder) (b : Block) : Preorder :=
  ((f.successors b).foldl (offer b) { p with visited := p.visited.insert b }).settle

/-- Whether there is a block left to visit. This is `has_next`. -/
def hasNext (p : Preorder) : Bool := !p.stack.isEmpty

/-- The next block and the traversal after it, if there is one left. This is `next`. -/
def next? (f : Flow) (p : Preorder) : Option (Block × Preorder) :=
  match p.stack with
  | [] => none
  | b :: rest => some (b, visit f { p with stack := rest } b)

/-- The next block, or the complaint that there is none left. This is `try_next`. -/
def tryNext (f : Flow) (p : Preorder) : Except Error (Block × Preorder) :=
  match next? f p with
  | none => .error .exhausted
  | some r => .ok r

/-- The blocks still to push and to visit: the stack, and the edges not taken yet. -/
def pending (f : Flow) (p : Preorder) : Nat :=
  p.stack.length + f.edges.countP (!p.taken.contains ·)

private theorem countP_insert_lt {es : List Edge} {taken : Std.ExtTreeSet Edge} {e : Edge}
    (hm : e ∈ es) (hn : taken.contains e = false) :
    es.countP (!(taken.insert e).contains ·) < es.countP (!taken.contains ·) := by
  have hle : ∀ l : List Edge,
      l.countP (!(taken.insert e).contains ·) ≤ l.countP (!taken.contains ·) := fun l =>
    List.countP_mono_left fun x _ hx => by
      rw [Std.ExtTreeSet.contains_insert] at hx
      simp at hx
      simp [hx.2]
  obtain ⟨l, r, rfl⟩ := List.append_of_mem hm
  have hl := hle l
  have hr := hle r
  have he : (taken.insert e).contains e = true := by simp
  simp only [List.countP_append, List.countP_cons, he, hn, Bool.not_true, Bool.not_false,
    Bool.false_eq_true, if_true, if_false]
  omega

private theorem pending_offer {f : Flow} {b c : Block} (p : Preorder) (h : c ∈ f.successors b) :
    (offer b p c).pending f ≤ p.pending f := by
  unfold offer
  split
  · exact Nat.le_refl _
  · next hc =>
    have hn : p.taken.contains ⟨b, c⟩ = false := by
      cases ht : p.taken.contains ⟨b, c⟩ <;> simp_all
    have := countP_insert_lt (Flow.mem_edges (e := ⟨b, c⟩).mpr h) hn
    simp only [pending, List.length_cons]
    omega

private theorem pending_foldl_offer {f : Flow} {b : Block} (cs : List Block)
    (h : ∀ c ∈ cs, c ∈ f.successors b) (p : Preorder) :
    (cs.foldl (offer b) p).pending f ≤ p.pending f := by
  induction cs generalizing p with
  | nil => exact Nat.le_refl _
  | cons c cs ih =>
    exact Nat.le_trans (ih (fun d hd => h d (List.mem_cons_of_mem _ hd)) _)
      (pending_offer p (h c List.mem_cons_self))

private theorem pending_settle (f : Flow) (p : Preorder) : p.settle.pending f ≤ p.pending f := by
  have := (List.dropWhile_sublist (l := p.stack) p.visited.contains).length_le
  simp only [pending, settle]
  omega

/-- Every visit brings a traversal closer to its end. -/
theorem pending_next {f : Flow} {p q : Preorder} {b : Block} (h : next? f p = some (b, q)) :
    q.pending f < p.pending f := by
  unfold next? at h
  split at h
  · cases h
  · next c rest hs =>
    cases h
    refine Nat.lt_of_le_of_lt (Nat.le_trans (pending_settle f _)
      (pending_foldl_offer _ (fun _ hc => hc) _)) ?_
    simp only [pending, hs, List.length_cons]
    omega

/-- All blocks still to come, in the order of their visits. -/
def rest (f : Flow) (p : Preorder) : List Block :=
  match _h : next? f p with
  | none => []
  | some (b, q) => b :: rest f q
termination_by p.pending f
decreasing_by exact pending_next _h

/-- The traversal after all visits. -/
def finished (f : Flow) (p : Preorder) : Preorder :=
  match _h : next? f p with
  | none => p
  | some (_, q) => finished f q
termination_by p.pending f
decreasing_by exact pending_next _h

/-- A traversal without a next block has come to its end. -/
theorem rest_of_none {f : Flow} {p : Preorder} (h : next? f p = none) : rest f p = [] := by
  rw [rest]
  split <;> simp_all

/-- What is left of a traversal begins with its next block. -/
theorem rest_of_some {f : Flow} {p q : Preorder} {b : Block} (h : next? f p = some (b, q)) :
    rest f p = b :: rest f q := by
  rw [rest]
  split <;> simp_all

end Preorder

/-- The blocks met by a depth-first traversal from given roots, in the order of their visits. -/
def Flow.preorder (f : Flow) (roots : List Block) : List Block :=
  Preorder.rest f (Preorder.start f roots)

end Dominance
