import Dominance.MethodBody.WarmUp
import Dominance.Proofs.MethodBody.Roots

/-!
# Warm-ups in any order

Many workers may share a warm-up, and nothing is known of who visits which body when. Visits come in any
order; once one fails, some bodies may never be visited, and any of the complaints may be the one that is
returned. A visit of a body does nothing to the others, and all that it does to its own is to keep the
tree that any later question would build. The only complaint is that a body is empty.

Main statement: a warm-up succeeds exactly if no body is empty, it fails with one and the same error, and
nothing that is done to a body later shows whether there was a warm-up.
-/

namespace Dominance

/-- The result of a loop is the result of its steps in turn. -/
theorem Logged.value_foldlM {α σ : Type} (f : σ → α → Logged σ) (l : List α) (s : σ) :
    (l.foldlM f s).value = l.foldl (fun s a => (f s a).value) s := by
  induction l generalizing s with
  | nil => rfl
  | cons a l ih => exact ih (f s a).value

namespace MethodBody

variable {β : Type} {bodies current after : Array (MethodBody β)} {m n : MethodBody β}
  {seen : List Nat} {errors : List Error} {outcome : Except Error Unit}

/-- What is complained about when a body is asked for its dominators. -/
def complaints (m : MethodBody β) : List Error :=
  match m.dominators.value.1 with
  | .error e => [e]
  | .ok _ => []

/-- What visits in any order make of bodies, with the positions visited and the complaints made. -/
inductive Visits (bodies : Array (MethodBody β)) :
    List Nat → List Error → Array (MethodBody β) → Prop where
  | start : Visits bodies [] [] bodies
  | visit {seen : List Nat} {errors : List Error} {current : Array (MethodBody β)} {i : Nat}
    {m : MethodBody β} (before : Visits bodies seen errors current) (hm : current[i]? = some m) :
    Visits bodies (i :: seen) (m.complaints ++ errors)
      (current.setIfInBounds i m.dominators.value.2)

/-- How a warm-up may end. Without complaint all bodies have been visited; otherwise some of them have,
and one of the complaints is returned. -/
inductive WarmsUp (bodies : Array (MethodBody β)) :
    Except Error Unit → Array (MethodBody β) → Prop where
  | complete {seen : List Nat} {after : Array (MethodBody β)} (visits : Visits bodies seen [] after)
    (all : ∀ i < bodies.size, i ∈ seen) : WarmsUp bodies (.ok ()) after
  | failed {seen : List Nat} {errors : List Error} {after : Array (MethodBody β)} {e : Error}
    (visits : Visits bodies seen errors after) (returned : e ∈ errors) :
    WarmsUp bodies (.error e) after

/-! ## What the visits of a fresh body do -/

/-- A body that differs from another one in the kept tree only, and keeps no wrong one. -/
structure Alike (m n : MethodBody β) : Prop where
  fresh : n.Fresh
  forget : n.forget = m.forget

private theorem Alike.freshTree (h : Alike m n) : n.freshTree = m.freshTree := by
  show n.forget.freshTree = m.forget.freshTree
  rw [h.forget]

private theorem Alike.value_dominators (h : Alike m n) :
    n.dominators.value = (m.freshTree, { n with cache := m.freshTree.toOption }) := by
  rw [h.fresh.value_dominators, h.freshTree]

private theorem Alike.dominators (h : Alike m n) : Alike m n.dominators.value.2 where
  fresh := h.fresh.dominators
  forget := by
    rw [h.value_dominators]
    exact h.forget

/-- The only complaint about a body is that it is empty. -/
theorem freshTree_eq_error_iff {e : Error} :
    m.freshTree = .error e ↔ m.graph.isEmpty = true ∧ e = .emptyBody := by
  cases he : m.graph.isEmpty with
  | true =>
    simp only [freshTree, he, if_true, Except.error.injEq, true_and]
    exact eq_comm
  | false => simp [freshTree_of_nonempty he]

private theorem Alike.mem_complaints (h : Alike m n) {e : Error} :
    e ∈ n.complaints ↔ m.graph.isEmpty = true ∧ e = .emptyBody := by
  rw [← freshTree_eq_error_iff]
  unfold complaints
  rw [h.value_dominators]
  cases m.freshTree with
  | error r => simp [eq_comm]
  | ok t => simp

/-- What is known of every body after some visits: it is like it was, and it keeps its tree if it was
visited. Complaints were made about visited bodies that are empty. -/
structure Warmed (bodies current : Array (MethodBody β)) (seen : List Nat) (errors : List Error) :
    Prop where
  size : current.size = bodies.size
  alike : ∀ i m, bodies[i]? = some m → ∃ n, current[i]? = some n ∧ Alike m n ∧
    (i ∈ seen → n.cache = m.freshTree.toOption)
  complained : ∀ e, e ∈ errors ↔
    e = .emptyBody ∧ ∃ i ∈ seen, ∃ m, bodies[i]? = some m ∧ m.graph.isEmpty = true

private theorem warmed_start (h : ∀ m ∈ bodies, m.Fresh) : Warmed bodies bodies [] [] where
  size := rfl
  alike i m hm := ⟨m, hm, ⟨h m (Array.mem_of_getElem? hm), rfl⟩, by simp⟩
  complained e := by simp

/-- Every body now is like the one that was at its position. -/
theorem Warmed.origin {i : Nat} (h : Warmed bodies current seen errors) (hn : current[i]? = some n) :
    ∃ m, bodies[i]? = some m ∧ Alike m n ∧ (i ∈ seen → n.cache = m.freshTree.toOption) := by
  have hi : i < current.size := (Array.getElem?_eq_some_iff.mp hn).1
  obtain ⟨m, hm⟩ : ∃ m, bodies[i]? = some m :=
    Option.isSome_iff_exists.mp (by simpa [h.size] using hi)
  obtain ⟨n', hn', hlike⟩ := h.alike i m hm
  obtain rfl : n = n' := Option.some.inj (hn.symm.trans hn')
  exact ⟨m, hm, hlike⟩

/-- One visit. -/
theorem Warmed.visit {i : Nat} (h : Warmed bodies current seen errors) (hn : current[i]? = some n) :
    Warmed bodies (current.setIfInBounds i n.dominators.value.2) (i :: seen)
      (n.complaints ++ errors) := by
  have hi : i < current.size := (Array.getElem?_eq_some_iff.mp hn).1
  obtain ⟨m, hm, hlike, _⟩ := h.origin hn
  refine ⟨by simp [h.size], ?_, ?_⟩
  · intro j k hk
    by_cases hj : i = j
    · subst hj
      obtain rfl : m = k := Option.some.inj (hm.symm.trans hk)
      refine ⟨n.dominators.value.2, by simp [hi], hlike.dominators, ?_⟩
      intro _
      rw [hlike.value_dominators]
    · obtain ⟨n', hn', hlike', hseen⟩ := h.alike j k hk
      refine ⟨n', by simp [hj, hn'], hlike', ?_⟩
      intro hmem
      exact hseen ((List.mem_cons.mp hmem).resolve_left (Ne.symm hj))
  · intro e
    rw [List.mem_append, hlike.mem_complaints, h.complained e]
    simp only [List.mem_cons, exists_eq_or_imp, hm, Option.some.injEq, exists_eq_left']
    grind

private theorem Visits.warmed (h : Visits bodies seen errors current) (hfresh : ∀ m ∈ bodies, m.Fresh) :
    Warmed bodies current seen errors := by
  induction h with
  | start => exact warmed_start hfresh
  | visit _ hm ih => exact ih.visit hm

private theorem WarmsUp.warmed (h : WarmsUp bodies outcome after) (hfresh : ∀ m ∈ bodies, m.Fresh) :
    ∃ seen errors, Warmed bodies after seen errors := by
  cases h with
  | complete visits _ => exact ⟨_, _, visits.warmed hfresh⟩
  | failed visits _ => exact ⟨_, _, visits.warmed hfresh⟩

/-- The two outcomes of a warm-up. -/
theorem WarmsUp.outcome_cases (h : WarmsUp bodies outcome after) (hfresh : ∀ m ∈ bodies, m.Fresh) :
    (outcome = .ok () ∧ (∀ m ∈ bodies, m.graph.isEmpty = false) ∧ ∀ n ∈ after, ∃ t, n.cache = some t) ∨
      (outcome = .error .emptyBody ∧ ∃ m ∈ bodies, m.graph.isEmpty = true) := by
  cases h with
  | @complete seen after visits all =>
    have hw := visits.warmed hfresh
    have hlt : ∀ {i : Nat} {m : MethodBody β}, bodies[i]? = some m → i ∈ seen :=
      fun hm => all _ (Array.getElem?_eq_some_iff.mp hm).1
    -- Nobody complained, and everybody was visited.
    have hfull : ∀ m ∈ bodies, m.graph.isEmpty = false := by
      intro m hmem
      obtain ⟨i, hm⟩ := Array.getElem?_of_mem hmem
      rw [← Bool.not_eq_true]
      intro he
      have hcomplaint := (hw.complained .emptyBody).mpr ⟨rfl, i, hlt hm, m, hm, he⟩
      cases hcomplaint
    refine .inl ⟨rfl, hfull, ?_⟩
    intro n hmem
    obtain ⟨i, hn⟩ := Array.getElem?_of_mem hmem
    obtain ⟨m, hm, _, hcache⟩ := hw.origin hn
    rw [hcache (hlt hm), freshTree_of_nonempty (hfull m (Array.mem_of_getElem? hm))]
    exact ⟨_, rfl⟩
  | failed visits returned =>
    obtain ⟨rfl, i, _, m, hm, he⟩ := ((visits.warmed hfresh).complained _).mp returned
    exact .inr ⟨rfl, m, Array.mem_of_getElem? hm, he⟩

/-! ## Schedules -/

private theorem Visits.size_eq (h : Visits bodies seen errors current) : current.size = bodies.size := by
  induction h with
  | start => rfl
  | visit _ _ ih => simp [ih]

/-- An outcome that goes with the complaints made so far. -/
def Remembers (errors : List Error) : Except Error Unit → Prop
  | .ok () => errors = []
  | .error e => e ∈ errors

/-- One visit by a schedule; positions past the last body are passed over. -/
theorem Visits.warmOne {x : Except Error Unit × Array (MethodBody β)}
    (h : Visits bodies seen errors x.2) (hx : Remembers errors x.1) (i : Nat) :
    ∃ errors', Visits bodies (if i < bodies.size then i :: seen else seen) errors'
        (warmOne x i).value.2 ∧ Remembers errors' (warmOne x i).value.1 := by
  unfold MethodBody.warmOne
  cases hm : x.2[i]? with
  | none =>
    have hi : ¬i < bodies.size := by
      rw [← h.size_eq]
      simpa using hm
    rw [if_neg hi]
    exact ⟨errors, h, hx⟩
  | some m =>
    have hi : i < bodies.size := h.size_eq ▸ (Array.getElem?_eq_some_iff.mp hm).1
    rw [if_pos hi]
    refine ⟨m.complaints ++ errors, h.visit hm, ?_⟩
    simp only [Logged.value_bind, Logged.value_pure, complaints]
    -- What is remembered stays; otherwise the answer of this visit decides.
    cases hx1 : x.1 with
    | error e =>
      rw [hx1] at hx
      exact List.mem_append_right _ hx
    | ok u =>
      rw [hx1] at hx
      cases hd : m.dominators.value.1 with
      | error e => exact List.mem_cons_self
      | ok t => exact hx

/-- Bodies that are visited by a schedule are bodies after visits. -/
theorem visits_foldl (bodies : Array (MethodBody β)) (schedule : List Nat) :
    ∃ errors, Visits bodies (schedule.filter (· < bodies.size)).reverse errors
        (schedule.foldl (fun x i => (warmOne x i).value) (.ok (), bodies)).2 ∧
      Remembers errors (schedule.foldl (fun x i => (warmOne x i).value) (.ok (), bodies)).1 := by
  induction schedule using List.reverseRecOn with
  | nil => exact ⟨[], .start, rfl⟩
  | append_singleton schedule i ih =>
    obtain ⟨errors, h, hx⟩ := ih
    have hnext := h.warmOne hx i
    rw [List.foldl_append, List.filter_append, List.reverse_append, List.filter_singleton]
    by_cases hi : i < bodies.size
    · simpa [hi] using hnext
    · simpa [hi] using hnext

/-- A schedule that leaves out bodies only after a failure is one way in which a warm-up may go. -/
theorem warmsUp_warmBy (bodies : Array (MethodBody β)) (schedule : List Nat)
    (hall : (warmBy schedule bodies).value.1 = .ok () → ∀ i < bodies.size, i ∈ schedule) :
    WarmsUp bodies (warmBy schedule bodies).value.1 (warmBy schedule bodies).value.2 := by
  obtain ⟨errors, h, hx⟩ := visits_foldl bodies schedule
  have hvalue : (warmBy schedule bodies).value =
      schedule.foldl (fun x i => (warmOne x i).value) (.ok (), bodies) := by
    unfold warmBy
    rw [Logged.value_bind, Logged.value_foldlM]
    cases hfold : schedule.foldl (fun x i => (warmOne x i).value) (.ok (), bodies) with
    | mk outcome warmed =>
      cases outcome with
      | error e => rfl
      | ok u => rfl
  rw [hvalue] at hall ⊢
  cases hout : (schedule.foldl (fun x i => (warmOne x i).value) (.ok (), bodies)).1 with
  | error e =>
    rw [hout] at hx
    exact .failed h hx
  | ok u =>
    rw [hout] at hx
    cases hx
    refine .complete h fun i hi => ?_
    simpa [hi] using hall hout i hi

end MethodBody

namespace Operation

open MethodBody

variable {β : Type} [ToString β]

/-- Bodies that differ in the kept tree only, and keep no wrong one, answer alike forever. -/
theorem answers_of_alike {m n : MethodBody β} (hm : m.Fresh) (h : Alike m n)
    (ops : List (Operation β)) : (run n ops).value.1 = (run m ops).value.1 := by
  have hn := runForgetful_forget h.fresh ops
  rw [h.forget, runForgetful_forget hm ops] at hn
  exact (congrArg Prod.fst hn).symm

/-- Warming up bodies that operations led to, in any order and by any number of workers. It succeeds
exactly if no body is empty, and otherwise complains of an empty body. After success every body keeps its
tree. After success or failure every body, visited or not, answers all further operations as it would
have without the warm-up. Visiting by a schedule that leaves out bodies only after a failure is one such
warm-up, and so is visiting all bodies from the first to the last. -/
theorem warmUp_any_order (bodies : Array (MethodBody β))
    (hreached : ∀ m ∈ bodies, ∃ ops : List (Operation β), (run .empty ops).value.2 = m)
    (outcome : Except Error Unit) (after : Array (MethodBody β)) (h : WarmsUp bodies outcome after) :
    (outcome = .ok () ↔ ∀ m ∈ bodies, m.graph.isEmpty = false) ∧
    (outcome ≠ .ok () → outcome = .error .emptyBody) ∧
    (outcome = .ok () → ∀ n ∈ after, ∃ t, n.cache = some t) ∧
    after.size = bodies.size ∧
    (∀ (i : Nat) (m n : MethodBody β), bodies[i]? = some m → after[i]? = some n →
      ∀ ops : List (Operation β), (run n ops).value.1 = (run m ops).value.1) ∧
    (∀ schedule : List Nat,
      ((warmBy schedule bodies).value.1 = .ok () → ∀ i < bodies.size, i ∈ schedule) →
      WarmsUp bodies (warmBy schedule bodies).value.1 (warmBy schedule bodies).value.2) ∧
    WarmsUp bodies (warmAll bodies).value.1 (warmAll bodies).value.2 := by
  have hfresh : ∀ m ∈ bodies, m.Fresh := by
    intro m hm
    obtain ⟨ops, rfl⟩ := hreached m hm
    exact fresh_run (fresh_of_cache_eq_none rfl) ops
  obtain ⟨seen, errors, hw⟩ := h.warmed hfresh
  refine ⟨?_, ?_, ?_, hw.size, ?_, warmsUp_warmBy bodies, ?_⟩
  · rcases h.outcome_cases hfresh with ⟨rfl, hfull, _⟩ | ⟨rfl, m, hm, he⟩
    · exact ⟨fun _ => hfull, fun _ => rfl⟩
    · constructor
      · intro hok
        cases hok
      · intro hfull
        rw [hfull m hm] at he
        cases he
  · intro hne
    exact (h.outcome_cases hfresh).elim (fun hok => absurd hok.1 hne) And.left
  · rintro rfl
    exact (h.outcome_cases hfresh).elim (fun hok => hok.2.2) fun herr => nomatch herr.1
  · intro i m n hm hn ops
    obtain ⟨m', hm', hlike, _⟩ := hw.origin hn
    obtain rfl : m = m' := Option.some.inj (hm.symm.trans hm')
    exact answers_of_alike (hfresh m (Array.mem_of_getElem? hm)) hlike ops
  · exact warmsUp_warmBy bodies _ fun _ i hi => List.mem_range.mpr hi

/-- A body without a tree, one that keeps its tree, an empty one, and one more without a tree. -/
def mixed : Array (MethodBody String) :=
  #[(run .empty [.addBlock "a"]).value.2,
    (run .empty [.addBlock "a", .addBlock "b", .dominators]).value.2,
    (run .empty []).value.2,
    (run .empty [.addBlock "c", .addHandler ⟨0⟩]).value.2]

/-- A warm-up that visits the first body and the empty one, and no other. It fails, the first body keeps
its tree from now on, and no body answers differently. -/
theorem warmUp_mixed :
    (∀ m ∈ mixed, ∃ ops : List (Operation String), (run .empty ops).value.2 = m) ∧
      ∃ after, WarmsUp mixed (.error .emptyBody) after ∧
        after.map (·.cache.isSome) = #[true, true, false, false] ∧
        ∀ (i : Nat) (m n : MethodBody String), mixed[i]? = some m → after[i]? = some n →
          ∀ ops : List (Operation String), (run n ops).value.1 = (run m ops).value.1 := by
  have hreached : ∀ m ∈ mixed, ∃ ops : List (Operation String), (run .empty ops).value.2 = m := by
    simp only [mixed, List.mem_toArray, List.forall_mem_cons, List.not_mem_nil]
    exact ⟨⟨_, rfl⟩, ⟨_, rfl⟩, ⟨_, rfl⟩, ⟨_, rfl⟩, nofun⟩
  have hfirst := (Visits.start : Visits mixed [] [] mixed).visit (i := 0) rfl
  have hsecond := hfirst.visit (i := 2) (m := .empty) (by simp [mixed])
  have h : WarmsUp mixed (.error .emptyBody) _ := .failed hsecond List.mem_cons_self
  exact ⟨hreached, _, h, by decide +kernel, (warmUp_any_order mixed hreached _ _ h).2.2.2.2.1⟩

end Operation
end Dominance
