import Dominance.Preorder.Call
import Dominance.Proofs.Preorder

/-!
# A traversal at every moment

Between two calls a traversal has returned some of its blocks. Entries that have been visited meanwhile
may lie deeper in the stack, but never on top, so a stack that is not empty always gives a new block. An
edge is taken when its source is returned, and only if its target has not been returned by then.

Main statement: whatever has been asked of the traversal of an in-range flow, it has returned a first
part of the whole order, it says correctly whether that is all of it, and the edges taken are those that
led from a returned block to one not yet returned.
-/

namespace Dominance
namespace Flow

/-- An edge along which the blocks of `seen`, in the order of their visits, were left for one that had
not come yet. -/
def Follows (f : Flow) (seen : List Block) (e : Edge) : Prop :=
  ∃ before after, seen = before ++ e.source :: after ∧ e.target ∈ f.successors e.source ∧
    e.target ∉ before ++ [e.source]

variable {f : Flow} {seen : List Block} {b : Block} {e : Edge}

private theorem not_follows_nil : ¬f.Follows [] e := by
  rintro ⟨before, after, h, _⟩
  simp at h

private theorem Follows.source_mem (h : f.Follows seen e) : e.source ∈ seen := by
  obtain ⟨before, after, rfl, _⟩ := h
  simp

/-- A new block is left along the edges to blocks that have not come yet, itself included. What was
followed before does not change. -/
theorem follows_concat : f.Follows (seen ++ [b]) e ↔ f.Follows seen e ∨
    (e.source = b ∧ e.target ∈ f.successors b ∧ e.target ∉ seen ++ [b]) := by
  constructor
  · rintro ⟨before, after, hsplit, hsucc, hnew⟩
    rcases List.eq_nil_or_concat after with rfl | ⟨after, c, rfl⟩
    · obtain ⟨rfl, hb⟩ := List.append_inj' hsplit rfl
      cases hb
      exact .inr ⟨rfl, hsucc, hnew⟩
    · have hlast : seen ++ [b] = (before ++ e.source :: after) ++ [c] := by simpa using hsplit
      exact .inl ⟨before, after, (List.append_inj' hlast rfl).1, hsucc, hnew⟩
  · rintro (⟨before, after, rfl, hsucc, hnew⟩ | ⟨rfl, hsucc, hnew⟩)
    · exact ⟨before, after ++ [b], by simp, hsucc, hnew⟩
    · exact ⟨seen, [], rfl, hsucc, hnew⟩

end Flow

namespace Preorder

variable {f : Flow} {roots seen : List Block} {p q : Preorder} {b : Block}

/-- A traversal that has returned `seen`, between two calls. What it has returned and what is left make
up the whole order, and the edges taken tell how the returned blocks were left. -/
structure Underway (f : Flow) (roots seen : List Block) (p : Preorder) : Prop where
  visited : ∃ entries, Visited f roots seen p entries
  fresh : ∀ b, p.stack.head? = some b → b ∉ seen
  taken : ∀ e, e ∈ p.taken ↔ f.Follows seen e
  order : seen ++ rest f p = f.preorder roots

/-- A traversal begins with nothing returned and no edge taken. -/
theorem underway_start (f : Flow) (roots : List Block) : Underway f roots [] (start f roots) where
  visited := ⟨_, visited_start f roots⟩
  fresh _ _ := List.not_mem_nil
  taken e := by simp [start, Flow.not_follows_nil]
  order := rfl

namespace Underway

/-- One visit takes the edges from the visited block to those that have not come yet. -/
theorem taken_next (h : Underway f roots seen p) (hb : b ∉ seen)
    (hq : next? f p = some (b, q)) (hmark : ∀ c, q.visited.contains c = true ↔ c ∈ seen ++ [b])
    (e : Edge) : e ∈ q.taken ↔ f.Follows (seen ++ [b]) e := by
  have hfree : ∀ c, p.taken.contains ⟨b, c⟩ = false := by
    intro c
    rw [← Bool.not_eq_true, Std.ExtTreeSet.contains_iff_mem, h.taken]
    exact fun hfollows => hb hfollows.source_mem
  obtain ⟨below, o, _, rfl, ho⟩ := offered_next hfree hq
  have hnew : (p.visited.insert b).contains e.target = false ↔ e.target ∉ seen ++ [b] := by
    rw [← hmark, Bool.not_eq_true]
    exact iff_of_eq (congrArg (·.contains e.target = false) ho.visited.symm)
  rw [Flow.follows_concat, ← h.taken, ← hnew]
  exact ho.taken e

/-- A visit returns the next block of the order. -/
theorem next (hf : f.InRange) (h : Underway f roots seen p) (hq : next? f p = some (b, q)) :
    Underway f roots (seen ++ [b]) q := by
  obtain ⟨entries, hvisited⟩ := h.visited
  obtain ⟨⟨entries', hvisited'⟩, hfresh⟩ := hvisited.next hf h.fresh hq
  refine ⟨⟨entries', hvisited'⟩, hfresh, ?_, ?_⟩
  · exact h.taken_next (h.fresh b (head_of_next hq)) hq hvisited'.visited
  · rw [← h.order, rest_of_some hq, List.append_assoc, List.singleton_append]

/-- A call adds the block that it returns, if any, to those returned before. -/
theorem call (hf : f.InRange) (h : Underway f roots seen p) (c : Call) :
    Underway f roots (seen ++ (call f p c).1.block?.toList) (call f p c).2 := by
  have hsame : Underway f roots (seen ++ []) p := by rwa [List.append_nil]
  cases c with
  | hasNext => exact hsame
  | edgesTaken => exact hsame
  | next =>
    cases hq : next? f p with
    | none => rwa [call_of_stack_eq_nil (stack_of_next_none hq)]
    | some r =>
      rw [(call_of_next hq).1]
      exact h.next hf hq
  | tryNext =>
    cases hq : next? f p with
    | none => rwa [call_of_stack_eq_nil (stack_of_next_none hq)]
    | some r =>
      rw [(call_of_next hq).2]
      exact h.next hf hq

/-- Calls in any order return blocks of the order one after the other. -/
theorem calls (hf : f.InRange) (h : Underway f roots seen p) (cs : List Call) :
    Underway f roots (seen ++ returned (calls f p cs).1) (calls f p cs).2 := by
  induction cs generalizing seen p with
  | nil => simpa [Preorder.calls, returned] using h
  | cons c cs ih =>
    rw [Preorder.calls, returned_cons, ← List.append_assoc]
    exact ih (h.call hf c)

/-- Nothing is left of the order exactly if the stack is empty. -/
theorem eq_preorder_iff (h : Underway f roots seen p) : seen = f.preorder roots ↔ p.stack = [] := by
  rw [← h.order, List.self_eq_append_right]
  cases hq : next? f p with
  | none => simp [rest_of_none hq, stack_of_next_none hq]
  | some r =>
    have hstack : p.stack ≠ [] := by
      intro hnil
      rw [next?, hnil] at hq
      cases hq
    simp [rest_of_some hq, hstack]

/-- Unless the whole order has been returned, asking for a block returns the next one. -/
theorem exists_next (h : Underway f roots seen p) (hne : seen ≠ f.preorder roots) :
    ∃ b, (f.preorder roots)[seen.length]? = some b ∧
      (Preorder.call f p .next).1 = .next (some b) ∧
      (Preorder.call f p .tryNext).1 = .tryNext (.ok b) := by
  cases hq : next? f p with
  | none => exact absurd (h.eq_preorder_iff.mpr (stack_of_next_none hq)) hne
  | some r =>
    refine ⟨r.1, ?_, ?_, ?_⟩
    · rw [← h.order, rest_of_some hq]
      simp
    · rw [(call_of_next hq).1]
    · rw [(call_of_next hq).2]

end Underway

/-- Once the stack is empty, every call replies that no block is left, and nothing changes. -/
theorem calls_of_stack_eq_nil (h : p.stack = []) (cs : List Call) :
    calls f p cs = (cs.map (Call.spent p.taken), p) := by
  induction cs with
  | nil => rfl
  | cons c cs ih => simp [calls, call_of_stack_eq_nil h, ih]

/-- Whatever calls have been made of the traversal of an in-range flow, the blocks returned so far are a
first part of the whole order. A block is said to be left exactly if they are not all of it, and then
asking for a block returns the next one. Otherwise both ways of asking say that there is none, and all
further calls find the traversal as it is. The edges taken are those that led from a returned block to
one that had not been returned up to then. -/
theorem calls_exact (f : Flow) (hf : f.InRange) (roots : List Block) (cs : List Call) :
    let order := f.preorder roots
    let seen := returned (calls f (start f roots) cs).1
    let p := (calls f (start f roots) cs).2
    seen <+: order ∧
    ((call f p .hasNext).1 = .hasNext true ↔ seen ≠ order) ∧
    ((call f p .next).1 = .next none ↔ seen = order) ∧
    ((call f p .tryNext).1 = .tryNext (.error .exhausted) ↔ seen = order) ∧
    (seen ≠ order → ∃ b, order[seen.length]? = some b ∧ (call f p .next).1 = .next (some b) ∧
      (call f p .tryNext).1 = .tryNext (.ok b)) ∧
    (seen = order → ∀ more, calls f p more = (more.map (Call.spent p.taken), p)) ∧
    ∃ taken, (call f p .edgesTaken).1 = .edgesTaken taken ∧ ∀ e, e ∈ taken ↔ f.Follows seen e := by
  intro order seen p
  have h : Underway f roots seen p := (underway_start f roots).calls hf cs
  have hnext := h.exists_next
  have hspent : seen = order → ∀ c, call f p c = (c.spent p.taken, p) :=
    fun heq => call_of_stack_eq_nil (h.eq_preorder_iff.mp heq)
  refine ⟨⟨_, h.order⟩, ?_, ?_, ?_, hnext, ?_, p.taken, rfl, h.taken⟩
  · rw [ne_eq, h.eq_preorder_iff]
    simp [call, hasNext]
  · refine ⟨fun hnone => ?_, fun heq => by rw [hspent heq]; rfl⟩
    by_contra hne
    obtain ⟨b, _, hsome, _⟩ := hnext hne
    rw [hnone] at hsome
    cases hsome
  · refine ⟨fun hnone => ?_, fun heq => by rw [hspent heq]; rfl⟩
    by_contra hne
    obtain ⟨b, _, _, hok⟩ := hnext hne
    rw [hnone] at hok
    cases hok
  · intro heq more
    exact calls_of_stack_eq_nil (h.eq_preorder_iff.mp heq) more

/-- Blocks 0 and 1 both push block 2, so an entry of it stays below when it is visited. Block 2 leads
back to block 0 and to itself. -/
def buried : Flow := .ofLists 3 #[[⟨2⟩, ⟨1⟩], [⟨2⟩], [⟨0⟩, ⟨2⟩]]

/-- The buried entry is never returned, and the ways back are not taken. -/
theorem calls_buried :
    let cs := [.hasNext, .next, .tryNext, .edgesTaken, .next]
    let p := (calls buried (start buried [⟨0⟩]) cs).2
    buried.InRange ∧ (call buried p .hasNext).1 ≠ .hasNext true ∧
      calls buried p [.next, .tryNext] = ([.next none, .tryNext (.error .exhausted)], p) ∧
      ∃ taken, (call buried p .edgesTaken).1 = .edgesTaken taken ∧ ⟨⟨1⟩, ⟨2⟩⟩ ∈ taken ∧
        ⟨⟨2⟩, ⟨0⟩⟩ ∉ taken := by
  intro cs p
  have hf : buried.InRange := Flow.inRange_ofLists (by decide)
  have hseen : returned (calls buried (start buried [⟨0⟩]) cs).1 = [⟨0⟩] ++ [⟨1⟩] ++ [⟨2⟩] := by
    decide +kernel
  have horder : buried.preorder [⟨0⟩] = [⟨0⟩] ++ [⟨1⟩] ++ [⟨2⟩] := by decide +kernel
  obtain ⟨_, hleft, _, _, _, hspent, taken, htaken, hmem⟩ := calls_exact buried hf [⟨0⟩] cs
  rw [hseen, horder] at hleft hspent
  rw [hseen] at hmem
  refine ⟨hf, fun h => hleft.mp h rfl, hspent rfl _, taken, htaken, ?_, ?_⟩
  · exact (hmem _).mpr ⟨[⟨0⟩], [⟨2⟩], rfl, by decide, by decide⟩
  · rw [hmem, Flow.follows_concat]
    rintro (h | h)
    · exact absurd h.source_mem (by decide)
    · exact h.2.2 (by decide)

end Preorder
end Dominance
