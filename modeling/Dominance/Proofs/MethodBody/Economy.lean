import Dominance.Proofs.MethodBody.Roots
import Dominance.Strict.MethodBody

/-!
# No change and no tree more than needed

A change of a method body is refused before anything is written, and a handler that is a root already
writes nothing. A tree that has been built is kept until blocks, edges or handlers are added, so of all
the questions asked until then only the first builds one.

Main statement: refused changes and changes without effect leave a body as it is, a write to a block
changes the data of that block only, and between two additions at most one tree is built.
-/

namespace Dominance

/-! ## Trees in the records -/

/-- The number of trees that were completed, going by the records. -/
def treesBuilt (events : List Event) : Nat :=
  events.countP fun
    | .treeBuilt .. => true
    | _ => false

/-- Without records no tree has been built. -/
@[simp] theorem treesBuilt_nil : treesBuilt [] = 0 := rfl

/-- Trees are counted record by record. -/
@[simp] theorem treesBuilt_append (es fs : List Event) :
    treesBuilt (es ++ fs) = treesBuilt es + treesBuilt fs := List.countP_append

/-- A construction completes one tree, whatever else it records. -/
@[simp] theorem treesBuilt_build (f : Flow) (roots : List Block) :
    treesBuilt (Tree.build f roots).events = 1 := by
  have hstart : treesBuilt (Preorder.startEvents f roots) = 0 := by
    simp [treesBuilt, Preorder.startEvents]
  have hsweep : ∀ n, treesBuilt ((Sweep.run n).events n) = 0 := by
    simp [treesBuilt, Sweep.events]
  show treesBuilt (Preorder.startEvents f roots ++ ((Sweep.run _).events _ ++ [_])) = 1
  rw [treesBuilt_append, treesBuilt_append, hstart, hsweep]
  rfl

namespace MethodBody

variable {α β : Type} {m n : MethodBody β} {b : Block}

private theorem dominators_of_cache {t : Tree} (hcache : m.cache = some t) :
    m.dominators = pure (.ok t, m) := by
  simp [dominators, hcache]

private theorem dominators_of_isEmpty (hcache : m.cache = none) (hempty : m.graph.isEmpty = true) :
    m.dominators = pure (.error .emptyBody, m) := by
  simp [dominators, hcache, hempty]

private theorem dominators_of_nonempty (hcache : m.cache = none) (hne : m.graph.isEmpty = false) :
    m.dominators =
      Tree.build m.flow m.roots >>= fun t => pure (.ok t, { m with cache := some t }) := by
  have hroots : m.roots.isEmpty = false := by simp [roots_of_nonempty hne]
  simp [dominators, hcache, hne, Tree.ofRoots, hroots]

/-- Whether a body is still to build a tree when it is asked for one. -/
def due (m : MethodBody β) : Bool := m.cache.isNone && !m.graph.isEmpty

/-- Asking for the dominators builds the tree that is due, and then none is. -/
theorem dominators_due (m : MethodBody β) :
    treesBuilt m.dominators.events = m.due.toNat ∧ m.dominators.value.2.due = false := by
  unfold due
  cases hcache : m.cache with
  | some t => simp [dominators_of_cache hcache, hcache]
  | none =>
    cases hempty : m.graph.isEmpty with
    | true => simp [dominators_of_isEmpty hcache hempty, hempty]
    | false => simp [dominators_of_nonempty hcache hempty]

/-- A question about the tree builds no tree of its own. -/
theorem ask_due (m : MethodBody β) {question : Tree → Logged α}
    (hquestion : ∀ t, treesBuilt (question t).events = 0) :
    treesBuilt (m.ask question).events = m.due.toNat ∧ (m.ask question).value.2.due = false := by
  have hasked := m.dominators_due
  rw [value_ask]
  refine ⟨?_, hasked.2⟩
  rw [ask, Logged.events_bind, treesBuilt_append, hasked.1]
  cases m.dominators.value with
  | mk answer n =>
    cases answer with
    | error e => simp
    | ok t => simp [hquestion t]

private theorem treesBuilt_addHandler (m : MethodBody β) (b : Block) :
    treesBuilt (m.addHandler b).events = 0 := by
  unfold addHandler
  split
  · rfl
  · split
    · rfl
    · rfl

/-! ## Refusals -/

/-- The writes of an edge find every index present, and the tree is dropped only after them. -/
theorem perform_addEdge (hm : m.graph.Filed) (e : Edge) (k : EdgeKind) :
    (Strict.Body.addEdge e k).perform m = some (leave m (m.addEdge e k)) := by
  rw [Strict.Body.addEdge, Strict.Writes.perform_bind, Strict.Body.perform_onGraph,
    hm.perform_addEdge e k, addEdge]
  cases m.graph.addEdge e k with
  | error r => rfl
  | ok g => rfl

/-- A handler is checked before anything is written. -/
theorem perform_addHandler (m : MethodBody β) (b : Block) :
    (Strict.Body.addHandler b).perform m = some (leave m (m.addHandler b).value) := by
  unfold Strict.Body.addHandler addHandler
  cases hb : m.graph.has b with
  | false => simp [hb, leave]
  | true =>
    by_cases hr : b ∈ m.roots
    · simp [hb, hr, leave]
    · simp [hb, hr, leave]

/-- A handler at the entry or at another handler changes nothing. -/
theorem value_addHandler_of_root (hm : m.Rooted) (hr : m.entry? = some b ∨ b ∈ m.handlers) :
    (m.addHandler b).value = .ok m := by
  have hroot : b ∈ m.roots := by simpa [roots] using hr
  have hne : m.graph.isEmpty = false := by
    rcases hr with hr | hr
    · rw [← Bool.not_eq_true, ← entry?_eq_none_iff, hr]
      simp
    · exact isEmpty_eq_false_of_has (hm.inside b hr)
  have hb : m.graph.has b = true := (hm.roots hne).2 b hroot
  simp [addHandler, hb, hroot]

/-- A write changes the data of the block that it is made to, if there is one. -/
theorem data?_setData (m : MethodBody β) (b c : Block) (x : β) :
    (m.setData b x).graph.data? c =
      if c = b ∧ m.graph.has b = true then some x else m.graph.data? c := by
  simp only [setData, Multigraph.setData, Multigraph.data?, Array.getElem?_setIfInBounds]
  by_cases hc : c = b
  · subst hc
    cases hb : m.graph.has c with
    | true =>
      have hlt : c.index < m.graph.nodes.size := Multigraph.has_iff.mp hb
      simp [hlt]
    | false =>
      have hle : m.graph.nodes.size ≤ c.index := Nat.le_of_not_lt (of_decide_eq_false hb)
      simp [hle]
  · have hne : b.index ≠ c.index := fun hi => hc (congrArg Block.mk hi.symm)
    simp [hc, hne]

end MethodBody

namespace Operation

open MethodBody

variable {β : Type} {m : MethodBody β}

/-- Whether an operation is a question that may build a tree. -/
def asks : Operation β → Bool
  | dominators | frontiers | unreachable | draw _ | drawTree _ => true
  | _ => false

/-- Two bodies with as many blocks, as many edges and the same handlers. -/
def Unaltered (m n : MethodBody β) : Prop :=
  n.blockCount = m.blockCount ∧ n.graph.edgeCount = m.graph.edgeCount ∧ n.handlers = m.handlers

instance (m n : MethodBody β) : Decidable (Unaltered m n) :=
  inferInstanceAs (Decidable (_ ∧ _ ∧ _))

/-- A change that is refused is answered with the refusal. -/
theorem of_keep_eq_error {r : Except Error (MethodBody β)} {e : Error}
    (h : (keep m r).1 = .outcome (.error e)) : r = .error e := by
  cases r with
  | error e' =>
    cases h
    rfl
  | ok n => cases h

variable [ToString β]

/-- None of the operations adds a block, an edge or a handler to the body that it meets. -/
def Quiet (m : MethodBody β) : List (Operation β) → Prop
  | [] => True
  | op :: ops => Unaltered m (apply m op).value.2 ∧ Quiet (apply m op).value.2 ops

instance decidableQuiet (m : MethodBody β) : (ops : List (Operation β)) → Decidable (Quiet m ops)
  | [] => .isTrue trivial
  | op :: ops =>
    have := decidableQuiet (apply m op).value.2 ops
    inferInstanceAs (Decidable (_ ∧ _))

/-- A question builds the tree that is due, and then none is. -/
theorem apply_of_asks (m : MethodBody β) {op : Operation β} (h : op.asks = true) :
    treesBuilt (apply m op).events = m.due.toNat ∧ (apply m op).value.2.due = false := by
  have hasked := m.dominators_due
  cases op with
  | addBlock | addEdge | addHandler | setData | copy => cases h
  | dominators => simpa [apply] using hasked
  | frontiers => simpa [apply, MethodBody.frontiers] using m.ask_due fun t => rfl
  | unreachable =>
    simp only [apply, MethodBody.unreachable, Logged.events_bind, Logged.value_bind,
      Logged.events_pure, Logged.value_pure, List.append_nil]
    apply m.ask_due
    intro t
    split
    · rfl
    · rfl
  | draw title => simpa [apply, MethodBody.draw] using hasked
  | drawTree title => simpa [apply, MethodBody.drawTree] using m.ask_due fun t => rfl

/-- Any other operation builds no tree, and a tree is due as before unless something is added. -/
theorem apply_of_not_asks (m : MethodBody β) {op : Operation β} (h : op.asks = false) :
    treesBuilt (apply m op).events = 0 ∧
      (Unaltered m (apply m op).value.2 → (apply m op).value.2.due = m.due) := by
  cases op with
  | dominators | frontiers | unreachable | draw | drawTree => cases h
  | addBlock x =>
    refine ⟨rfl, fun hsame => ?_⟩
    have hmore : (m.addBlock x).blockCount = m.blockCount := hsame.1
    simp at hmore
  | addEdge e k =>
    refine ⟨rfl, ?_⟩
    simp only [apply, Logged.value_pure]
    cases he : m.addEdge e k with
    | error r => exact fun _ => rfl
    | ok n =>
      obtain ⟨g, hg, rfl⟩ := of_addEdge_eq_ok he
      intro hsame
      have hmore : g.edges.size = m.graph.edges.size := hsame.2.1
      rw [(Multigraph.of_addEdge_eq_ok hg).2.2.2] at hmore
      simp at hmore
  | addHandler b =>
    constructor
    · simpa [apply] using m.treesBuilt_addHandler b
    · simp only [apply, Logged.value_bind, Logged.value_pure]
      cases hh : (m.addHandler b).value with
      | error r => exact fun _ => rfl
      | ok n =>
        rcases of_addHandler_eq_ok hh with rfl | ⟨_, _, rfl⟩
        · exact fun _ => rfl
        · intro hsame
          have hmore : m.handlers ++ [b] = m.handlers := hsame.2.2
          simp at hmore
  | setData b x => exact ⟨rfl, fun _ => by simp [apply, MethodBody.due, MethodBody.setData]⟩
  | copy => exact ⟨rfl, fun _ => rfl⟩

/-- Unless something is added, the first question builds the tree that is due, and that is all. -/
theorem treesBuilt_run {ops : List (Operation β)} (h : Quiet m ops) :
    treesBuilt (run m ops).events = (ops.any asks && m.due).toNat := by
  induction ops generalizing m with
  | nil => rfl
  | cons op ops ih =>
    obtain ⟨hop, hops⟩ := h
    simp only [run, Logged.events_bind, treesBuilt_append, Logged.events_pure, treesBuilt_nil]
    rw [ih hops, List.any_cons]
    cases hasks : op.asks with
    | true => simp [apply_of_asks m hasks]
    | false => simp [apply_of_not_asks m hasks, (apply_of_not_asks m hasks).2 hop]

/-- Whatever operations have led to a body, an edge or a handler that is refused leaves it as it was, the
kept tree included, even if what has been written is never undone; so does a handler at the entry or at
another handler. A write to a block changes the data of that block only. Operations that add no block, no
edge and no handler build at most one tree together: the first question does, if a tree is due. -/
theorem run_economical (ops : List (Operation β)) :
    let m := (run .empty ops).value.2
    (∀ e k, (Strict.Body.addEdge e k).perform m = some (leave m (m.addEdge e k)) ∧
      ∀ r, (apply m (.addEdge e k)).value.1 = .outcome (.error r) →
        (apply m (.addEdge e k)).value.2 = m ∧
        (Strict.Body.addEdge e k).perform m = some (.error r, m)) ∧
    (∀ b, (Strict.Body.addHandler b).perform m = some (leave m (m.addHandler b).value) ∧
      (∀ r, (apply m (.addHandler b)).value.1 = .outcome (.error r) →
        (apply m (.addHandler b)).value.2 = m ∧
        (Strict.Body.addHandler b).perform m = some (.error r, m)) ∧
      (m.entry? = some b ∨ b ∈ m.handlers →
        (apply m (.addHandler b)).value = (.outcome (.ok ()), m) ∧
        (Strict.Body.addHandler b).perform m = some (.ok (), m))) ∧
    (∀ b x, let n := (apply m (.setData b x)).value.2
      n = { m with graph := { m.graph with nodes := n.graph.nodes } } ∧
      n.blockCount = m.blockCount ∧
      ∀ c, n.graph.data? c = if c = b ∧ m.graph.has b = true then some x else m.graph.data? c) ∧
    (∀ more, Quiet m more → treesBuilt (run m more).events ≤ 1 ∧
      treesBuilt (run m more).events = (more.any asks && m.due).toNat) := by
  intro m
  have hfiled : m.graph.Filed := filed_graph_run ops
  have hrooted : m.Rooted := rooted_run ops
  refine ⟨fun e k => ⟨perform_addEdge hfiled e k, ?_⟩, fun b => ⟨m.perform_addHandler b, ?_, ?_⟩,
    fun b x => ⟨rfl, by simp [apply, MethodBody.setData, blockCount], fun c => m.data?_setData b c x⟩,
    fun more hquiet => ?_⟩
  · intro r hr
    have he : m.addEdge e k = .error r := of_keep_eq_error hr
    rw [perform_addEdge hfiled, he]
    exact ⟨by simp [apply, he, keep], rfl⟩
  · intro r hr
    have he : (m.addHandler b).value = .error r := of_keep_eq_error hr
    rw [perform_addHandler, he]
    exact ⟨by simp [apply, he, keep], rfl⟩
  · intro hroot
    have hok := value_addHandler_of_root hrooted hroot
    rw [perform_addHandler, hok]
    exact ⟨by simp [apply, hok, keep], rfl⟩
  · have hbuilt := treesBuilt_run hquiet
    exact ⟨hbuilt ▸ Bool.toNat_le _, hbuilt⟩

/-- A body that has dropped its tree. -/
def unfinished : List (Operation String) :=
  [.addBlock "a", .addBlock "b", .dominators, .addHandler ⟨1⟩, .addEdge ⟨⟨0⟩, ⟨1⟩⟩ .unconditional]

/-- Operations that ask for a tree in every way and add nothing. -/
def questions : List (Operation String) :=
  [.addEdge ⟨⟨0⟩, ⟨2⟩⟩ .onTrue, .unreachable, .addHandler ⟨0⟩, .draw none, .setData ⟨1⟩ "c", .frontiers,
    .addHandler ⟨2⟩, .drawTree none, .copy, .addHandler ⟨1⟩, .dominators]

/-- Five questions build one tree. A refused edge and a handler that is a root already do not count. -/
theorem run_economical_questions :
    let m := (run .empty unfinished).value.2
    Quiet m questions ∧ treesBuilt (run m questions).events = 1 ∧
      (Strict.Body.addEdge ⟨⟨0⟩, ⟨2⟩⟩ .onTrue).perform m = some (.error (.invalidBlock ⟨2⟩), m) ∧
      (Strict.Body.addHandler ⟨2⟩).perform m = some (.error (.invalidBlock ⟨2⟩), m) ∧
      (Strict.Body.addHandler ⟨1⟩).perform m = some (.ok (), m) := by
  intro m
  obtain ⟨hedge, hhandler, _, hbuilt⟩ := run_economical unfinished
  have hquiet : Quiet m questions := by decide +kernel
  have hdue : (questions.any asks && m.due).toNat = 1 := by decide +kernel
  refine ⟨hquiet, (hbuilt questions hquiet).2.trans hdue, ?_, ?_, ?_⟩
  · exact ((hedge _ _).2 _ rfl).2
  · exact ((hhandler _).2.1 _ rfl).2
  · exact ((hhandler _).2.2 (.inr (by decide +kernel))).2

end Operation
end Dominance
