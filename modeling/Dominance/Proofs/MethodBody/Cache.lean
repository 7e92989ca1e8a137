import Dominance.Proofs.MethodBody.Changes

/-!
# The kept dominator tree is never stale

A body is fresh if the tree that it keeps, if any, is the one that a new construction from its graph
and handlers gives. Asking a fresh body for its dominators is then the same as building them, whatever
is kept, and every operation leaves a fresh body fresh: changes of blocks, edges or handlers drop the
tree, and a write to a block changes nothing that the construction reads.

Main statement: in every run from the empty body the kept tree is the one built afresh, and the answers
are those of a body that never keeps a tree.
-/

namespace Dominance
namespace MethodBody

variable {α β : Type}

/-- The dominators by a new construction. -/
def freshTree (m : MethodBody β) : Except Error Tree :=
  if m.graph.isEmpty then .error .emptyBody else (Tree.ofRoots m.flow m.roots).value

/-- A tree that is kept is the one that a new construction gives. -/
def Fresh (m : MethodBody β) : Prop := ∀ t, m.cache = some t → m.freshTree = .ok t

/-- A body that keeps no tree keeps no wrong one. -/
theorem fresh_of_cache_eq_none {m : MethodBody β} (h : m.cache = none) : m.Fresh := by
  intro t ht
  rw [h] at ht
  cases ht

/-- A tree of dominators comes from the flow and the roots; a body without blocks has none. -/
theorem ofRoots_of_freshTree {m : MethodBody β} {t : Tree} (h : m.freshTree = .ok t) :
    (Tree.ofRoots m.flow m.roots).value = .ok t := by
  unfold freshTree at h
  split at h
  · cases h
  · exact h

/-! ## Questions -/

/-- What asking for the dominators does to a fresh body does not depend on whether a tree is kept. -/
theorem Fresh.value_dominators {m : MethodBody β} (h : m.Fresh) :
    m.dominators.value = (m.freshTree, { m with cache := m.freshTree.toOption }) := by
  cases hc : m.cache with
  | some t =>
    have hk : { m with cache := some t } = m := by rw [← hc]
    simp [dominators, hc, h t hc, Except.toOption, hk]
  | none =>
    have hk : { m with cache := none } = m := by rw [← hc]
    unfold dominators freshTree
    rw [hc]
    cases he : m.graph.isEmpty with
    | true => simp [Except.toOption, hk]
    | false =>
      cases ht : (Tree.ofRoots m.flow m.roots).value <;> simp [ht, Except.toOption, hk]

/-- Asking for the dominators leaves no wrong tree behind. -/
theorem Fresh.dominators {m : MethodBody β} (h : m.Fresh) : m.dominators.value.2.Fresh := by
  rw [h.value_dominators]
  intro t ht
  show m.freshTree = .ok t
  cases hf : m.freshTree with
  | error e => simp [hf, Except.toOption] at ht
  | ok s => simpa [hf, Except.toOption] using ht

private theorem fresh_forget (m : MethodBody β) : m.forget.Fresh := fresh_of_cache_eq_none rfl

private theorem Fresh.dominators_forget {m : MethodBody β} (h : m.Fresh) :
    m.forget.dominators.value = m.dominators.value := by
  rw [h.value_dominators, m.fresh_forget.value_dominators]
  rfl

private theorem Fresh.ask_forget {m : MethodBody β} (h : m.Fresh) (question : Tree → Logged α) :
    (m.forget.ask question).value = (m.ask question).value := by
  rw [value_ask, value_ask, h.dominators_forget]

/-! ## Changes -/

private theorem freshTree_setData (m : MethodBody β) (b : Block) (x : β) :
    (m.setData b x).freshTree = m.freshTree := by
  simp [freshTree, setData, flow, roots, entry?]

/-- Every change leaves a fresh body fresh. -/
theorem Fresh.change {m n : MethodBody β} (h : m.Fresh) (hchange : Change m n) : n.Fresh := by
  cases hchange with
  | refl => exact h
  | asked => exact h.dominators
  | block x => exact fresh_of_cache_eq_none rfl
  | edge he =>
    obtain ⟨g, _, rfl⟩ := of_addEdge_eq_ok he
    exact fresh_of_cache_eq_none rfl
  | handler _ _ => exact fresh_of_cache_eq_none rfl
  | data b x =>
    intro t ht
    exact (freshTree_setData m b x).trans (h t ht)

/-- Handlers are registered without regard to the kept tree. -/
theorem addHandler_forget (m : MethodBody β) (b : Block) :
    (m.forget.addHandler b).value.map forget = (m.addHandler b).value.map forget := by
  unfold addHandler
  rw [show m.forget.graph = m.graph from rfl, show m.forget.roots = m.roots from rfl]
  cases m.graph.has b with
  | false => rfl
  | true =>
    cases m.roots.contains b with
    | true => rfl
    | false => rfl

end MethodBody

namespace Operation

open MethodBody

variable {β : Type}

/-- Two bodies that differ in the kept tree only take a change the same way. -/
theorem keep_congr {m n : MethodBody β} {r s : Except Error (MethodBody β)} (h : m.forget = n.forget)
    (hr : r.map forget = s.map forget) :
    (keep m r).1 = (keep n s).1 ∧ (keep m r).2.forget = (keep n s).2.forget := by
  cases r with
  | error e => cases s <;> simp_all [keep, Except.map]
  | ok m' => cases s <;> simp_all [keep, Except.map]

variable [ToString β]

/-- A fresh body answers as it would without its tree, and goes on as it would without it. -/
theorem apply_forget {m : MethodBody β} (h : m.Fresh) (op : Operation β) :
    (apply m.forget op).value.1 = (apply m op).value.1 ∧
      (apply m.forget op).value.2.forget = (apply m op).value.2.forget := by
  cases op with
  | addBlock x => exact ⟨rfl, rfl⟩
  | addEdge e k => exact keep_congr rfl rfl
  | addHandler b => exact keep_congr rfl (addHandler_forget m b)
  | setData b x => exact ⟨rfl, rfl⟩
  | copy => exact ⟨rfl, rfl⟩
  | dominators => simp only [apply, Logged.value_bind, h.dominators_forget, and_self]
  | frontiers =>
    have he : m.forget.frontiers.value = m.frontiers.value := h.ask_forget _
    simp only [apply, Logged.value_bind, he, and_self]
  | unreachable =>
    have he : m.forget.unreachable.value = m.unreachable.value := h.ask_forget _
    simp only [apply, Logged.value_bind, he, and_self]
  | draw title =>
    simp only [apply, MethodBody.draw, Logged.value_bind, h.dominators_forget, and_self]
  | drawTree title =>
    have he : (m.forget.drawTree title).value = (m.drawTree title).value := h.ask_forget _
    simp only [apply, Logged.value_bind, he, and_self]

/-- A run from a fresh body gives the answers, and up to the kept tree the body, of a run that keeps
no tree. -/
theorem runForgetful_forget {m : MethodBody β} (h : m.Fresh) (ops : List (Operation β)) :
    (runForgetful m.forget ops).value = ((run m ops).value.1, (run m ops).value.2.forget) := by
  induction ops generalizing m with
  | nil => rfl
  | cons op ops ih =>
    have hop := apply_forget h op
    simp only [runForgetful, run, Logged.value_bind, Logged.value_pure]
    rw [hop.1, hop.2, ih (h.change (change_apply m op))]

/-- No operations leave a wrong tree behind. -/
theorem fresh_run {m : MethodBody β} (h : m.Fresh) (ops : List (Operation β)) :
    (run m ops).value.2.Fresh :=
  run_preserves (fun _ _ hm hchange => hm.change hchange) h ops

/-- In every run from the empty body, the kept tree is the one that the current graph and handlers
give afresh, and all answers are those of a body that never keeps a tree. -/
theorem run_never_stale (ops : List (Operation β)) :
    let m := (run .empty ops).value.2
    (∀ t, m.cache = some t → (Tree.ofRoots m.flow m.roots).value = .ok t) ∧
      (runForgetful .empty ops).value = ((run .empty ops).value.1, m.forget) := by
  have hempty : (MethodBody.empty : MethodBody β).Fresh := fresh_of_cache_eq_none rfl
  constructor
  · intro t ht
    exact ofRoots_of_freshTree (fresh_run hempty ops t ht)
  · exact runForgetful_forget hempty ops

/-- A run that builds a tree, keeps it through changes without effect, drops it, and builds another. -/
def revisited : List (Operation String) :=
  [.addBlock "a", .addBlock "b", .addBlock "c", .addEdge ⟨⟨0⟩, ⟨1⟩⟩ .unconditional, .dominators,
    .setData ⟨1⟩ "d", .addEdge ⟨⟨0⟩, ⟨7⟩⟩ .unconditional, .addHandler ⟨0⟩, .frontiers, .copy,
    .addHandler ⟨2⟩, .addEdge ⟨⟨2⟩, ⟨1⟩⟩ .unconditional, .draw none, .unreachable]

/-- The tree that is kept at the end of that run is the one of both roots, in which the block that they
lead to is shared. -/
theorem run_revisited :
    ∃ t, (run .empty revisited).value.2.cache = some t ∧ t.isShared ⟨1⟩ = true ∧
      (Tree.ofRoots (run .empty revisited).value.2.flow [⟨0⟩, ⟨2⟩]).value = .ok t := by
  have hc : ((run .empty revisited).value.2.cache.map (·.isShared ⟨1⟩)) = some true := by
    decide +kernel
  obtain ⟨t, ht, hs⟩ := Option.map_eq_some_iff.1 hc
  exact ⟨t, ht, hs, (run_never_stale revisited).1 t ht⟩

end Operation
end Dominance
