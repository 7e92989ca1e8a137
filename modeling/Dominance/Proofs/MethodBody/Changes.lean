import Dominance.MethodBody.Operation
import Dominance.Proofs.Multigraph

/-!
# What operations change

Whatever is asked of a method body, it stays as it is, it is asked for its dominators, or it gets a new
block, an edge, a handler or new data of a block. What all of these preserve holds of every body that
operations lead to. Which edges and handlers a body has can be told from the answers.
-/

namespace Dominance
namespace MethodBody

variable {α β : Type}

/-- What an operation can make of a method body. -/
inductive Change (m : MethodBody β) : MethodBody β → Prop where
  /-- A refused change, or one without effect. -/
  | refl : Change m m
  /-- A question, which may leave a tree to be kept. -/
  | asked : Change m m.dominators.value.2
  | block (x : β) : Change m (m.addBlock x)
  | edge {e : Edge} {k : EdgeKind} {n : MethodBody β} (h : m.addEdge e k = .ok n) : Change m n
  | handler {b : Block} (hb : m.graph.has b = true) (hr : b ∉ m.roots) :
    Change m { m with handlers := m.handlers ++ [b], cache := none }
  | data (b : Block) (x : β) : Change m (m.setData b x)

/-- An accepted edge changes the graph only, and drops the tree. -/
theorem of_addEdge_eq_ok {m n : MethodBody β} {e : Edge} {k : EdgeKind} (h : m.addEdge e k = .ok n) :
    ∃ g, m.graph.addEdge e k = .ok g ∧ n = { m with graph := g, cache := none } := by
  unfold addEdge at h
  cases hg : m.graph.addEdge e k with
  | error r => simp [hg] at h
  | ok g => exact ⟨g, rfl, by simpa [hg] using h.symm⟩

/-- Asking for the dominators changes nothing but the kept tree. -/
theorem exists_cache_dominators (m : MethodBody β) :
    ∃ cache, m.dominators.value.2 = { m with cache } := by
  unfold dominators
  split
  · exact ⟨m.cache, rfl⟩
  · split
    · exact ⟨m.cache, rfl⟩
    · rw [Logged.value_bind]
      split
      · exact ⟨m.cache, rfl⟩
      · exact ⟨some _, rfl⟩

/-- A question is put to the tree of dominators, which is kept. -/
theorem value_ask (m : MethodBody β) (question : Tree → Logged α) :
    (m.ask question).value =
      (m.dominators.value.1.map fun t => (question t).value, m.dominators.value.2) := by
  unfold ask
  rw [Logged.value_bind]
  cases m.dominators.value with
  | mk answer n =>
    cases answer with
    | error e => rfl
    | ok t => rfl

private theorem change_ask (m : MethodBody β) (question : Tree → Logged α) :
    Change m (m.ask question).value.2 := by
  rw [value_ask]
  exact .asked

/-- An accepted handler is a root already, or it is a block of the body and comes last. -/
theorem of_addHandler_eq_ok {m n : MethodBody β} {b : Block} (h : (m.addHandler b).value = .ok n) :
    n = m ∨ (m.graph.has b = true ∧ b ∉ m.roots ∧
      n = { m with handlers := m.handlers ++ [b], cache := none }) := by
  unfold addHandler at h
  split at h
  · cases h
  · next hb =>
    split at h
    · cases h
      exact .inl rfl
    · next hr =>
      cases h
      exact .inr ⟨by simpa using hb, by simpa using hr, rfl⟩

/-- A root is the entry or a handler. -/
theorem eq_entry_or_mem_handlers {m : MethodBody β} {r : Block} (h : r ∈ m.roots) :
    r = ⟨0⟩ ∨ r ∈ m.handlers := by
  rcases List.mem_append.mp h with hentry | hhandler
  · unfold entry? at hentry
    split at hentry
    · cases hentry
    · exact .inl (List.mem_singleton.mp hentry)
  · exact .inr hhandler

/-- An accepted handler is a root from then on. -/
theorem mem_roots_of_addHandler_eq_ok {m n : MethodBody β} {b : Block}
    (h : (m.addHandler b).value = .ok n) : b ∈ n.roots := by
  unfold addHandler at h
  split at h
  · cases h
  · split at h
    · next hr =>
      cases h
      exact List.contains_iff_mem.mp hr
    · cases h
      simp [roots]

private theorem change_addHandler {m n : MethodBody β} {b : Block} (h : (m.addHandler b).value = .ok n) :
    Change m n := by
  rcases of_addHandler_eq_ok h with rfl | ⟨hb, hr, rfl⟩
  · exact .refl
  · exact .handler hb hr

end MethodBody

namespace Operation

open MethodBody

variable {β : Type}

private theorem change_keep {m : MethodBody β} {r : Except Error (MethodBody β)}
    (h : ∀ n, r = .ok n → Change m n) : Change m (keep m r).2 := by
  cases r with
  | error e => exact .refl
  | ok n => exact h n rfl

/-- The edge that an operation has added, going by its answer. -/
def addedEdge? : Operation β → Answer → Option (Edge × EdgeKind)
  | .addEdge e k, .outcome (.ok ()) => some (e, k)
  | _, _ => none

/-- The edges that operations have added, going by their answers. -/
def addedEdges (ops : List (Operation β)) (answers : List Answer) : List (Edge × EdgeKind) :=
  (List.zipWith addedEdge? ops answers).filterMap id

/-- The block that an operation has been allowed to make a handler, going by its answer. -/
def acceptedHandler? : Operation β → Answer → Option Block
  | .addHandler b, .outcome (.ok ()) => some b
  | _, _ => none

/-- The blocks that operations have been allowed to make handlers, going by their answers. -/
def acceptedHandlers (ops : List (Operation β)) (answers : List Answer) : List Block :=
  (List.zipWith acceptedHandler? ops answers).filterMap id

variable [ToString β]

/-- Every operation makes one of the changes. -/
theorem change_apply (m : MethodBody β) (op : Operation β) : Change m (apply m op).value.2 := by
  cases op with
  | addBlock x => exact .block x
  | addEdge e k => exact change_keep fun n h => .edge h
  | addHandler b => exact change_keep fun n h => change_addHandler h
  | setData b x => exact .data b x
  | copy => exact .refl
  | dominators => exact .asked
  | frontiers => exact m.change_ask _
  | unreachable => exact m.change_ask _
  | draw title => exact .asked
  | drawTree title => exact m.change_ask _

/-- What every change preserves holds after a run if it holds before. -/
theorem run_preserves {P : MethodBody β → Prop} (hP : ∀ m n, P m → Change m n → P n)
    {m : MethodBody β} (hm : P m) (ops : List (Operation β)) : P (run m ops).value.2 := by
  induction ops generalizing m with
  | nil => exact hm
  | cons op ops ih => exact ih (hP _ _ hm (change_apply m op))

/-! ## Edges and handlers in the answers -/

/-- What an operation with a given answer adds to a body. -/
inductive Adds (m : MethodBody β) (op : Operation β) (a : Answer) (n : MethodBody β) : Prop where
  | nothing (hedge : addedEdge? op a = none) (hhandler : acceptedHandler? op a = none)
    (hedges : n.graph.edges = m.graph.edges) (hhandlers : n.handlers = m.handlers)
  | edge (y : Edge × EdgeKind) (hedge : addedEdge? op a = some y)
    (hhandler : acceptedHandler? op a = none) (hedges : n.graph.edges = m.graph.edges.push y)
    (hhandlers : n.handlers = m.handlers)
  | handler (b : Block) (hedge : addedEdge? op a = none) (hhandler : acceptedHandler? op a = some b)
    (hedges : n.graph.edges = m.graph.edges) (hroot : b ∈ n.roots)
    (hhandlers : n.handlers = m.handlers ∨ n.handlers = m.handlers ++ [b])

/-- An operation adds the edge or the handler that its answer speaks of, and nothing else. -/
theorem adds_apply (m : MethodBody β) (op : Operation β) :
    Adds m op (apply m op).value.1 (apply m op).value.2 := by
  obtain ⟨cache, hasked⟩ := m.exists_cache_dominators
  have hask {α : Type} (question : Tree → Logged α) :
      (m.ask question).value.2 = { m with cache } := by
    rw [value_ask]
    exact hasked
  cases op with
  | addBlock x => exact .nothing rfl rfl rfl rfl
  | addEdge e k =>
    simp only [apply, Logged.value_pure]
    cases h : m.addEdge e k with
    | error r => exact .nothing rfl rfl rfl rfl
    | ok n =>
      obtain ⟨g, hg, rfl⟩ := of_addEdge_eq_ok h
      exact .edge (e, k) rfl rfl (Multigraph.of_addEdge_eq_ok hg).2.2.2 rfl
  | addHandler b =>
    simp only [apply, Logged.value_bind, Logged.value_pure]
    cases h : (m.addHandler b).value with
    | error r => exact .nothing rfl rfl rfl rfl
    | ok n =>
      have hroot : b ∈ n.roots := mem_roots_of_addHandler_eq_ok h
      rcases of_addHandler_eq_ok h with rfl | ⟨_, _, rfl⟩
      · exact .handler b rfl rfl rfl hroot (.inl rfl)
      · exact .handler b rfl rfl rfl hroot (.inr rfl)
  | setData b x => exact .nothing rfl rfl rfl rfl
  | copy => exact .nothing rfl rfl rfl rfl
  | dominators => exact .nothing rfl rfl (hasked ▸ rfl) (hasked ▸ rfl)
  | frontiers => exact .nothing rfl rfl (hask _ ▸ rfl) (hask _ ▸ rfl)
  | unreachable => exact .nothing rfl rfl (hask _ ▸ rfl) (hask _ ▸ rfl)
  | draw title => exact .nothing rfl rfl (hasked ▸ rfl) (hasked ▸ rfl)
  | drawTree title => exact .nothing rfl rfl (hask _ ▸ rfl) (hask _ ▸ rfl)

/-- An edge that an operation adds comes after all others. -/
theorem edges_apply (m : MethodBody β) (op : Operation β) :
    (apply m op).value.2.graph.edges.toList =
      m.graph.edges.toList ++ (addedEdge? op (apply m op).value.1).toList := by
  cases adds_apply m op with
  | nothing hedge _ hedges _ => simp [hedge, hedges]
  | edge _ hedge _ hedges _ => simp [hedge, hedges]
  | handler _ hedge _ hedges _ _ => simp [hedge, hedges]

/-- A body holds the edges that were added to it, in the order of their addition. -/
theorem edges_run (m : MethodBody β) (ops : List (Operation β)) :
    (run m ops).value.2.graph.edges.toList =
      m.graph.edges.toList ++ addedEdges ops (run m ops).value.1 := by
  induction ops generalizing m with
  | nil => simp [addedEdges]
  | cons op ops ih =>
    simp only [run, Logged.value_bind, Logged.value_pure]
    rw [ih, edges_apply, List.append_assoc]
    cases h : addedEdge? op (apply m op).value.1 <;> simp [addedEdges, h]

/-- A block that an operation is allowed to make a handler is one afterwards, unless it is the entry. -/
theorem mem_handlers_apply (m : MethodBody β) (op : Operation β) (r : Block) :
    r = ⟨0⟩ ∨ r ∈ (apply m op).value.2.handlers ↔
      (r = ⟨0⟩ ∨ r ∈ m.handlers) ∨ acceptedHandler? op (apply m op).value.1 = some r := by
  cases adds_apply m op with
  | nothing _ hhandler _ hhandlers => simp [hhandler, hhandlers]
  | edge _ _ hhandler _ hhandlers => simp [hhandler, hhandlers]
  | handler b _ hhandler _ hroot hhandlers =>
    have hb := eq_entry_or_mem_handlers hroot
    rw [hhandler, Option.some.injEq]
    rcases hhandlers with hsame | hlast
    · rw [hsame] at hb ⊢
      exact ⟨.inl, fun hr => hr.elim id fun he => he ▸ hb⟩
    · simp [hlast, or_assoc, eq_comm]

/-- The entry aside, the handlers of a body are the blocks that were allowed to become handlers. -/
theorem mem_handlers_run (m : MethodBody β) (ops : List (Operation β)) (r : Block) :
    r = ⟨0⟩ ∨ r ∈ (run m ops).value.2.handlers ↔
      (r = ⟨0⟩ ∨ r ∈ m.handlers) ∨ r ∈ acceptedHandlers ops (run m ops).value.1 := by
  induction ops generalizing m with
  | nil => simp [acceptedHandlers]
  | cons op ops ih =>
    simp only [run, Logged.value_bind, Logged.value_pure]
    rw [ih, mem_handlers_apply, or_assoc]
    cases h : acceptedHandler? op (apply m op).value.1 <;> simp [acceptedHandlers, h, eq_comm]

end Operation
end Dominance
