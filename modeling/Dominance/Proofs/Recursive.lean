import Dominance.Preorder.Recursive
import Dominance.Proofs.Preorder
import Mathlib.Data.List.Basic

/-!
# Traversal and recursion

A traversal with a stack visits blocks in the order of the recursive search. The stack at any time is
what the recursion still has to do: blocks pushed by a visit are the successors that the recursion
takes next, and what lies below them waits for the recursion to return. Entries that have been visited
meanwhile make no difference, since the recursion skips them too.
-/

namespace Dominance
namespace Flow

variable {f : Flow} {roots seen todo after : List Block} {b : Block}

/-- What has been seen stays seen. -/
theorem Explores.subset (h : f.Explores seen todo after) : seen ⊆ after := by
  induction h with
  | done => exact List.Subset.refl _
  | skip _ _ ih => exact ih
  | visit _ _ _ below rest => exact fun c hc => rest (below (List.mem_append_left _ hc))

/-- The search has one result. -/
theorem Explores.unique {other : List Block} (h : f.Explores seen todo after)
    (h' : f.Explores seen todo other) : other = after := by
  induction h generalizing other with
  | done => cases h'; rfl
  | skip hb _ ih =>
    cases h' with
    | skip _ rest => exact ih rest
    | visit hb' _ _ => exact absurd hb hb'
  | visit hb _ _ below rest =>
    cases h' with
    | skip hb' _ => exact absurd hb' hb
    | visit _ below' rest' =>
      cases below below'
      exact rest rest'

/-- Searching from two lists in turn is searching from the first and then from the second. -/
theorem Explores.of_append {more : List Block} (h : f.Explores seen (todo ++ more) after) :
    ∃ inner, f.Explores seen todo inner ∧ f.Explores inner more after := by
  induction todo generalizing seen with
  | nil => exact ⟨seen, .done seen, h⟩
  | cons b todo ih =>
    cases h with
    | skip hb rest =>
      obtain ⟨inner, h, h'⟩ := ih rest
      exact ⟨inner, .skip hb h, h'⟩
    | visit hb below rest =>
      obtain ⟨inner, h, h'⟩ := ih rest
      exact ⟨inner, .visit hb below h, h'⟩

/-- Blocks seen before may be left out of a list. -/
theorem Explores.of_filter {q : Block → Bool} (hq : ∀ c, q c = false → c ∈ seen)
    (h : f.Explores seen (todo.filter q) after) : f.Explores seen todo after := by
  induction todo generalizing seen with
  | nil => exact h
  | cons b todo ih =>
    cases hb : q b with
    | false =>
      rw [List.filter_cons_of_neg (by simp [hb])] at h
      exact .skip (hq b hb) (ih hq h)
    | true =>
      rw [List.filter_cons_of_pos hb] at h
      cases h with
      | skip hmem rest => exact .skip hmem (ih hq rest)
      | visit hmem below rest =>
        refine .visit hmem below (ih ?_ rest)
        exact fun c hc => below.subset (List.mem_append_left _ (hq c hc))

/-- Blocks seen before may be dropped from the front of a list. -/
theorem Explores.of_dropWhile {q : Block → Bool} (hq : ∀ c, q c = true → c ∈ seen)
    (h : f.Explores seen (todo.dropWhile q) after) : f.Explores seen todo after := by
  induction todo with
  | nil => exact h
  | cons b todo ih =>
    cases hb : q b with
    | false =>
      rw [List.dropWhile_cons_of_neg (by simp [hb])] at h
      exact h
    | true =>
      rw [List.dropWhile_cons_of_pos hb] at h
      exact .skip (hq b hb) (ih h)

/-- Distinct blocks of the graph. -/
structure Distinct (f : Flow) (l : List Block) : Prop where
  nodup : l.Nodup
  inside : ∀ b ∈ l, f.has b = true

/-- There are no more distinct blocks than the graph has. -/
theorem Distinct.length_le (h : f.Distinct seen) : seen.length ≤ f.blockCount := by
  have hsub : seen ⊆ (List.range f.blockCount).map Block.mk := by
    intro b hb
    have hlt : b.index < f.blockCount := of_decide_eq_true (h.inside b hb)
    exact List.mem_map.mpr ⟨b.index, List.mem_range.mpr hlt, rfl⟩
  have hle := h.nodup.length_le_of_subset hsub
  rwa [List.length_map, List.length_range] at hle

private theorem Distinct.concat (h : f.Distinct seen) (hb : b ∉ seen) (hhas : f.has b = true) :
    f.Distinct (seen ++ [b]) where
  nodup := by
    have hne : ∀ c ∈ seen, c ≠ b := fun c hc he => hb (he ▸ hc)
    simpa [List.nodup_append, h.nodup] using hne
  inside c hc := by
    rcases List.mem_append.mp hc with hc | hc
    · exact h.inside c hc
    · rw [List.mem_singleton.mp hc]
      exact hhas

section

variable (hf : f.InRange)
include hf

private theorem has_of_mem_successors (hb : f.has b = true) :
    ∀ c ∈ (f.successors b).eraseDups.reverse, f.has c = true := by
  intro c hc
  rw [List.mem_reverse, List.mem_eraseDups] at hc
  exact hf b c hb hc

/-- The search visits blocks of the graph only, and none twice. -/
theorem Explores.distinct (h : f.Explores seen todo after) (hs : f.Distinct seen)
    (htodo : ∀ b ∈ todo, f.has b = true) : f.Distinct after ∧ seen.length ≤ after.length := by
  induction h with
  | done => exact ⟨hs, Nat.le_refl _⟩
  | skip _ _ ih => exact ih hs (List.forall_mem_of_forall_mem_cons htodo)
  | @visit seen todo inner after b hb _ _ below rest =>
    have hhas : f.has b = true := htodo b List.mem_cons_self
    have hinner := below (hs.concat hb hhas) (has_of_mem_successors hf hhas)
    have hafter := rest hinner.1 (List.forall_mem_of_forall_mem_cons htodo)
    have hle := Nat.le_trans hinner.2 hafter.2
    rw [List.length_append] at hle
    exact ⟨hafter.1, Nat.le_of_add_right_le hle⟩

/-- A bound on the depth that allows for all blocks not seen yet is never met. -/
theorem Explores.foldl_explore {fuel : Nat} (h : f.Explores seen todo after) (hs : f.Distinct seen)
    (htodo : ∀ b ∈ todo, f.has b = true) (hfuel : f.blockCount ≤ fuel + seen.length) :
    todo.foldl (f.explore fuel) seen = after := by
  induction h generalizing fuel with
  | done => rfl
  | skip hb _ ih =>
    rw [List.foldl_cons, explore_of_mem hb]
    exact ih hs (List.forall_mem_of_forall_mem_cons htodo) hfuel
  | @visit seen todo inner after b hb hbelow _ below rest =>
    have hhas : f.has b = true := htodo b List.mem_cons_self
    have hs' : f.Distinct (seen ++ [b]) := hs.concat hb hhas
    have hlen : (seen ++ [b]).length = seen.length + 1 := by simp
    have hroom := hs'.length_le
    have hin := has_of_mem_successors hf hhas
    have hinner := hbelow.distinct hf hs' hin
    rcases fuel with _ | fuel
    · -- All blocks of the graph have been seen, and `b` has not.
      omega
    · have hstep : f.explore (fuel + 1) seen b = inner := by
        rw [explore, if_neg (by simpa using hb)]
        exact below hs' hin (by omega)
      rw [List.foldl_cons, hstep]
      exact rest hinner.1 (List.forall_mem_of_forall_mem_cons htodo) (by omega)

end

end Flow

namespace Preorder

variable {f : Flow} {roots seen : List Block} {p : Preorder} {entries : List (Nat × Block)}

/-- What is left of a traversal is the recursive search from the blocks on its stack. -/
theorem Visited.explores (hf : f.InRange) (h : Visited f roots seen p entries)
    (hfresh : ∀ b, p.stack.head? = some b → b ∉ seen) :
    f.Explores seen p.stack (seen ++ rest f p) := by
  fun_induction rest f p generalizing seen entries with
  | case1 p hq =>
    rw [stack_of_next_none hq, List.append_nil]
    exact .done seen
  | case2 p b q hq ih =>
    obtain ⟨⟨entries', h'⟩, hfresh'⟩ := h.next hf hfresh hq
    have hrest := ih h' hfresh'
    have hb : b ∉ seen := hfresh b (head_of_next hq)
    obtain ⟨below, hs, hs'⟩ := stack_next (h.taken_eq_false hb) hq
    -- The recursion skips what the stack does not hold because it has been visited.
    rw [hs'] at hrest
    have hall := hrest.of_dropWhile fun c hc => (h'.visited c).mp hc
    obtain ⟨inner, hpushed, hbelow⟩ := hall.of_append
    have hinside := hpushed.of_filter (q := fun c => !q.visited.contains c) fun c hc =>
      (h'.visited c).mp (by simpa using hc)
    rw [hs, List.append_cons]
    exact .visit hb hinside hbelow

end Preorder

namespace Flow

/-- The traversal of an in-range flow visits blocks in the order of the recursive search from the
roots of the graph, by its rules and as a function. It visits exactly the reached blocks, each once. -/
theorem preorder_eq_recursivePreorder (f : Flow) (hf : f.InRange) (roots : List Block) :
    f.Explores [] (f.validRoots roots).reverse (f.preorder roots) ∧
    (∀ order, f.Explores [] (f.validRoots roots).reverse order → order = f.preorder roots) ∧
    f.preorder roots = f.recursivePreorder roots ∧
    (f.preorder roots).Nodup ∧
    (∀ b, b ∈ f.preorder roots ↔ f.Reaches roots b) := by
  have h : f.Explores [] (f.validRoots roots).reverse (f.preorder roots) :=
    (Preorder.visited_start f roots).explores hf fun _ _ => List.not_mem_nil
  have hroots : ∀ b ∈ (f.validRoots roots).reverse, f.has b = true := by
    intro b hb
    exact (List.mem_filter.mp (List.mem_reverse.mp hb)).2
  refine ⟨h, fun _ => h.unique, ?_, f.nodup_preorder hf roots, fun b => f.mem_preorder hf⟩
  symm
  apply h.foldl_explore hf ⟨List.nodup_nil, List.forall_mem_nil _⟩ hroots
  simp

/-- A flow with parallel edges, a loop and two ways into block 1; block 3 is reached from block 0. -/
def tangle : Flow := ofLists 4 #[[⟨1⟩, ⟨2⟩, ⟨1⟩, ⟨0⟩], [⟨3⟩], [⟨3⟩, ⟨1⟩], []]

/-- The later root is visited first and reaches the earlier one; a root outside the graph is passed
over. -/
theorem preorder_tangle :
    tangle.InRange ∧ tangle.preorder [⟨3⟩, ⟨0⟩, ⟨7⟩] = [⟨0⟩, ⟨2⟩, ⟨1⟩, ⟨3⟩] := by
  have hf : tangle.InRange := inRange_ofLists (by decide)
  refine ⟨hf, ?_⟩
  rw [(preorder_eq_recursivePreorder tangle hf [⟨3⟩, ⟨0⟩, ⟨7⟩]).2.2.1]
  decide

end Flow
end Dominance
