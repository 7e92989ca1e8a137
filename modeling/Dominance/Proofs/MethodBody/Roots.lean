import Dominance.Proofs.Adjacency
import Dominance.Proofs.MethodBody.Cache
import Dominance.Proofs.Tree.Configured

/-!
# The roots of a method body

Handlers are registered at blocks of the body, never twice and never at the entry, and neither blocks
nor handlers are ever removed. The roots of a body that is not empty are therefore the entry followed by
other blocks of it, without repetitions, and its edges make an in-range flow. No check of a configured
construction has anything to complain about.

Main statement: whatever operations lead to a body, a construction that checks its roots and its result
returns the tree that the body keeps, and the roots of the tree are those of the body.
-/

namespace Dominance

namespace Tree

/-- A tree that is built from different roots of an in-range flow has these roots, in the same order. -/
theorem roots_build {f : Flow} {roots : List Block} (hf : f.InRange) (hnodup : roots.Nodup)
    (hroots : ∀ r ∈ roots, f.has r = true) : (build f roots).value.roots = roots := by
  have hmet : ∀ r ∈ roots, (build f roots).value.contains r = true := by
    intro r hr
    apply ((exact_build hf roots).contains_iff r).mpr
    exact Flow.reaches_of_mem (List.mem_filter.mpr ⟨hr, hroots r hr⟩)
  show (roots.filter (build f roots).value.contains).eraseDups = roots
  rw [List.filter_eq_self.mpr hmet]
  exact Preorder.eraseDups_of_nodup hnodup

/-- A strict construction from roots of an in-range flow returns its tree. -/
theorem configured_strict {f : Flow} {roots : List Block} (hf : f.InRange) (hne : roots ≠ [])
    (hroots : ∀ r ∈ roots, f.has r = true) :
    (configured f roots .strict).value = .ok (build f roots).value := by
  rw [value_configured hf, Config.strict, if_pos rfl, rootError?_eq_none hne hroots]
  simp [Config.refuses]

end Tree

namespace MethodBody

variable {β : Type} {m n : MethodBody β}

/-- The handlers of a body are different blocks of it other than the entry, and its edges join blocks
of it. -/
structure Rooted (m : MethodBody β) : Prop where
  closed : m.graph.Closed
  nodup : m.handlers.Nodup
  inside : ∀ b ∈ m.handlers, m.graph.has b = true
  entry : (⟨0⟩ : Block) ∉ m.handlers

/-- An empty body has no handler and no edge. -/
theorem rooted_empty : (empty : MethodBody β).Rooted :=
  ⟨Multigraph.closed_empty, by simp [empty], by simp [empty], by simp [empty]⟩

/-- A body that has a block has an entry. -/
theorem isEmpty_eq_false_of_has {b : Block} (h : m.graph.has b = true) :
    m.graph.isEmpty = false := by
  rw [Multigraph.has_iff] at h
  rw [Multigraph.isEmpty_eq_false_iff]
  omega

private theorem entry_of_nonempty (h : m.graph.isEmpty = false) : m.entry? = some ⟨0⟩ := by
  simp [h, entry?]

/-- The roots of a body with blocks are its entry and its handlers, in this order. -/
theorem roots_of_nonempty (h : m.graph.isEmpty = false) : m.roots = ⟨0⟩ :: m.handlers := by
  simp [roots, entry_of_nonempty h]

/-- Every change keeps handlers and edges in place. -/
theorem Rooted.change (hm : m.Rooted) (h : Change m n) : n.Rooted := by
  cases h with
  | refl => exact hm
  | asked =>
    obtain ⟨cache, h⟩ := m.exists_cache_dominators
    rw [h]
    exact ⟨hm.closed, hm.nodup, hm.inside, hm.entry⟩
  | block x =>
    have hle : m.graph.blockCount ≤ (m.graph.addBlock x).blockCount := by simp
    exact ⟨hm.closed.mono hle rfl, hm.nodup, fun b hb => Multigraph.has_mono hle (hm.inside b hb),
      hm.entry⟩
  | edge h =>
    obtain ⟨g, hg, rfl⟩ := of_addEdge_eq_ok h
    have hle : m.graph.blockCount ≤ g.blockCount :=
      Nat.le_of_eq (Multigraph.blockCount_addEdge hg).symm
    exact ⟨hm.closed.addEdge hg, hm.nodup, fun b hb => Multigraph.has_mono hle (hm.inside b hb),
      hm.entry⟩
  | @handler b hb hr =>
    rw [roots_of_nonempty (isEmpty_eq_false_of_has hb), List.mem_cons, not_or] at hr
    refine ⟨hm.closed, ?_, ?_, ?_⟩
    · have hne : ∀ c ∈ m.handlers, c ≠ b := fun c hc he => hr.2 (he ▸ hc)
      simpa [List.nodup_append, hm.nodup] using hne
    · intro c hc
      rw [List.mem_append, List.mem_singleton] at hc
      exact hc.elim (hm.inside c) fun he => he ▸ hb
    · rw [List.mem_append, List.mem_singleton, not_or]
      exact ⟨hm.entry, fun he => hr.1 he.symm⟩
  | data b x =>
    have hle : m.graph.blockCount ≤ (m.graph.setData b x).blockCount := by simp
    exact ⟨hm.closed.mono hle rfl, hm.nodup, fun c hc => Multigraph.has_mono hle (hm.inside c hc),
      hm.entry⟩

/-- The edges of a body stay filed at their ends. -/
theorem filed_change (hm : m.graph.Filed) (h : Change m n) : n.graph.Filed := by
  cases h with
  | refl => exact hm
  | asked =>
    obtain ⟨cache, h⟩ := m.exists_cache_dominators
    rw [h]
    exact hm
  | block x => exact hm.addBlock x
  | edge he =>
    obtain ⟨g, hg, rfl⟩ := of_addEdge_eq_ok he
    exact hm.addEdge hg
  | handler _ _ => exact hm
  | data b x => exact hm.setData b x

/-- The roots of a body that is not empty are different blocks of it. -/
theorem Rooted.roots (hm : m.Rooted) (hne : m.graph.isEmpty = false) :
    m.roots.Nodup ∧ ∀ b ∈ m.roots, m.graph.has b = true := by
  have hzero : m.graph.has ⟨0⟩ = true :=
    Multigraph.has_iff.mpr (Multigraph.isEmpty_eq_false_iff.mp hne)
  rw [roots_of_nonempty hne]
  exact ⟨List.nodup_cons.mpr ⟨hm.entry, hm.nodup⟩, List.forall_mem_cons.mpr ⟨hzero, hm.inside⟩⟩

/-- The dominators of a body that is not empty are built from its flow and its roots. -/
theorem freshTree_of_nonempty (hne : m.graph.isEmpty = false) :
    m.freshTree = .ok (Tree.build m.flow m.roots).value := by
  have hroots : m.roots.isEmpty = false := by simp [roots_of_nonempty hne]
  simp only [freshTree, hne, Tree.ofRoots, hroots, Bool.false_eq_true, if_false, Logged.value_bind,
    Logged.value_pure]

end MethodBody

namespace Operation

open MethodBody

variable {β : Type} [ToString β]

/-- Whatever is done to an empty body, its handlers stay blocks of it other than the entry. -/
theorem rooted_run (ops : List (Operation β)) : (run .empty ops).value.2.Rooted :=
  run_preserves (fun _ _ hm h => hm.change h) rooted_empty ops

/-- Whatever is done to an empty body, its edges are noted at both of their ends. -/
theorem filed_graph_run (ops : List (Operation β)) : (run .empty ops).value.2.graph.Filed :=
  run_preserves (fun _ _ hm h => filed_change hm h) Multigraph.filed_empty ops

/-- In every run from the empty body the handlers are different blocks of the body and never its entry.
If the body has blocks, then its roots are different blocks of it, the entry first; a construction that
checks its roots and its result, without a limit, returns the tree that asking for the dominators
returns and keeps; and the roots of that tree are the roots of the body, in the same order. -/
theorem run_roots_valid (ops : List (Operation β)) :
    let m := (run .empty ops).value.2
    (m.handlers.Nodup ∧ (∀ b ∈ m.handlers, m.graph.has b = true) ∧ (⟨0⟩ : Block) ∉ m.handlers) ∧
    (m.graph.isEmpty = false →
      m.roots.Nodup ∧ (∀ b ∈ m.roots, m.graph.has b = true) ∧
      m.roots.head? = m.entry? ∧ m.entry? = some ⟨0⟩ ∧
      ∃ t, (Tree.configured m.flow m.roots .strict).value = .ok t ∧
        m.dominators.value.1 = .ok t ∧ m.dominators.value.2.cache = some t ∧
        (∀ kept, m.cache = some kept → kept = t) ∧ t.roots = m.roots) := by
  intro m
  have hm : m.Rooted := rooted_run ops
  have hfresh : m.Fresh := fresh_run (fresh_of_cache_eq_none rfl) ops
  refine ⟨⟨hm.nodup, hm.inside, hm.entry⟩, fun hne => ?_⟩
  have hroots := hm.roots hne
  have hhead : m.roots = ⟨0⟩ :: m.handlers := roots_of_nonempty hne
  have htree : m.freshTree = .ok (Tree.build m.flow m.roots).value := freshTree_of_nonempty hne
  have hasked := hfresh.value_dominators
  rw [htree] at hasked
  refine ⟨hroots.1, hroots.2, ?_, entry_of_nonempty hne, (Tree.build m.flow m.roots).value, ?_, ?_,
    ?_, ?_, ?_⟩
  · rw [entry_of_nonempty hne, hhead]
    rfl
  · apply Tree.configured_strict hm.closed.inRange _ hroots.2
    simp [hhead]
  · rw [hasked]
  · rw [hasked]
    rfl
  · intro kept hkept
    exact Except.ok.inj ((hfresh kept hkept).symm.trans htree)
  · exact Tree.roots_build hm.closed.inRange hroots.1 hroots.2

/-- A run with handlers that are refused, that are roots already, and that are new. -/
def guarded : List (Operation String) :=
  [.addHandler ⟨0⟩, .addBlock "a", .addHandler ⟨0⟩, .addHandler ⟨2⟩, .addBlock "b", .addBlock "c",
    .addHandler ⟨2⟩, .dominators, .addEdge ⟨⟨0⟩, ⟨1⟩⟩ .unconditional, .addHandler ⟨2⟩, .addHandler ⟨1⟩,
    .addEdge ⟨⟨2⟩, ⟨3⟩⟩ .unconditional]

/-- After that run the roots are the entry and the two new handlers, in the order they came, and the tree
has the same. -/
theorem run_roots_guarded :
    (run .empty guarded).value.2.graph.isEmpty = false ∧
      (run .empty guarded).value.2.roots = [⟨0⟩, ⟨2⟩, ⟨1⟩] ∧
      ∃ t, (Tree.configured (run .empty guarded).value.2.flow [⟨0⟩, ⟨2⟩, ⟨1⟩] .strict).value = .ok t ∧
        t.roots = [⟨0⟩, ⟨2⟩, ⟨1⟩] := by
  have hne : (run .empty guarded).value.2.graph.isEmpty = false := by decide +kernel
  have hroots : (run .empty guarded).value.2.roots = [⟨0⟩, ⟨2⟩, ⟨1⟩] := by decide +kernel
  obtain ⟨_, _, _, _, t, ht, _, _, _, htroots⟩ := (run_roots_valid guarded).2 hne
  exact ⟨hne, hroots, t, hroots ▸ ht, hroots ▸ htroots⟩

end Operation
end Dominance
