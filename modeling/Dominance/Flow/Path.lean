import Dominance.Flow

/-!
# Paths and dominance

A walk follows successors; its list of blocks holds both ends. A block is reached from roots if a
walk leads to it from a root of the graph, and it is dominated by the blocks that lie on all such
walks. With several roots, that is all walks from any of them.
-/

namespace Dominance
namespace Flow

/-- A walk from a block along successors, with the blocks on it in order. -/
inductive Walk (f : Flow) : Block → List Block → Block → Prop where
  | single (b : Block) : Walk f b [b] b
  | step {a c b : Block} {p : List Block} (h : c ∈ f.successors a) (w : Walk f c p b) :
    Walk f a (a :: p) b

/-- Some root of the graph leads to the block. -/
def Reaches (f : Flow) (roots : List Block) (b : Block) : Prop :=
  ∃ r ∈ f.validRoots roots, ∃ p, f.Walk r p b

/-- The block `a` lies on every walk from a root of the graph to `b`. -/
def Dominates (f : Flow) (roots : List Block) (a b : Block) : Prop :=
  ∀ r ∈ f.validRoots roots, ∀ p, f.Walk r p b → a ∈ p

/-- The block `a` dominates `b` and is another block. -/
def StrictlyDominates (f : Flow) (roots : List Block) (a b : Block) : Prop :=
  a ≠ b ∧ f.Dominates roots a b

variable {f : Flow} {roots : List Block} {a b c : Block} {p q : List Block}

/-- A walk holds its last block. -/
theorem Walk.last_mem (w : f.Walk a p b) : b ∈ p := by
  induction w with
  | single => exact List.mem_cons_self
  | step _ _ ih => exact List.mem_cons_of_mem _ ih

/-- A walk holds its first block. -/
theorem Walk.head_mem (w : f.Walk a p b) : a ∈ p := by
  cases w <;> exact List.mem_cons_self

/-- A walk goes on along a successor. -/
theorem Walk.concat (w : f.Walk a p b) (h : c ∈ f.successors b) : f.Walk a (p ++ [c]) c := by
  induction w with
  | single b => exact .step h (.single c)
  | step h' _ ih => exact .step h' (ih h)

/-- Two walks that meet are one walk. -/
theorem Walk.append (w : f.Walk a p b) (v : f.Walk b q c) : f.Walk a (p ++ q.tail) c := by
  induction w with
  | single b =>
    cases v with
    | single => exact .single _
    | step h v => exact .step h v
  | step h _ ih => exact .step h (ih v)

/-- A walk can be cut at each of its blocks. -/
theorem Walk.split (w : f.Walk a p b) (h : c ∈ p) :
    ∃ q r, f.Walk a q c ∧ f.Walk c r b ∧ p = q ++ r.tail := by
  induction w with
  | single b =>
    cases List.mem_singleton.mp h
    exact ⟨[c], [c], .single c, .single c, rfl⟩
  | @step a d b p hd w ih =>
    by_cases hc : c = a
    · subst hc
      exact ⟨[c], c :: p, .single c, .step hd w, rfl⟩
    · obtain ⟨q, r, wq, wr, rfl⟩ := ih ((List.mem_cons.mp h).resolve_left hc)
      exact ⟨a :: q, r, .step hd wq, wr, rfl⟩

/-- A root of the graph is reached. -/
theorem reaches_of_mem (h : b ∈ f.validRoots roots) : f.Reaches roots b := ⟨b, h, [b], .single b⟩

/-- What a reached block leads to is reached. -/
theorem Reaches.successor (h : f.Reaches roots b) (hc : c ∈ f.successors b) : f.Reaches roots c := by
  obtain ⟨r, hr, p, w⟩ := h
  exact ⟨r, hr, p ++ [c], w.concat hc⟩

/-- In an in-range flow only blocks of the graph are reached. -/
theorem Reaches.has (hf : f.InRange) (h : f.Reaches roots b) : f.has b = true := by
  obtain ⟨r, hr, p, w⟩ := h
  have hh : f.has r = true := (List.mem_filter.mp hr).2
  clear hr
  induction w with
  | single => exact hh
  | step hc _ ih => exact ih (hf _ _ hh hc)

/-- Every block dominates itself. -/
theorem dominates_self (f : Flow) (roots : List Block) (b : Block) : f.Dominates roots b b :=
  fun _ _ _ w => w.last_mem

/-- Dominance is transitive. -/
theorem Dominates.trans (h : f.Dominates roots a b) (h' : f.Dominates roots b c) :
    f.Dominates roots a c := by
  intro r hr p w
  obtain ⟨q, s, wq, _, rfl⟩ := w.split (h' r hr p w)
  exact List.mem_append_left _ (h r hr q wq)

end Flow
end Dominance
