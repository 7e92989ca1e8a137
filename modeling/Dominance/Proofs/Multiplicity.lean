import Mathlib.Data.List.Perm.Subperm
import Dominance.Proofs.DisjointWalks
import Dominance.Proofs.Strict.Sweep

/-!
# How often blocks are visited

Nothing keeps a flow from leading past its block count, and blocks there are never marked as visited.
Such a block may be on the stack several times, and each of its entries is visited in turn. Its edges
are taken at the first visit; a later one finds nothing to push. So every entry stands for a different
block that leads there, and visits and entries together are as many as these blocks.

Main statement: a block of the graph is visited once if it is reached, and a block past the count as
often as there are different visited blocks that lead to it. A traversal makes no more visits than
there are different roots and edges, and then ends.
-/

namespace Dominance
namespace Flow

/-- The different blocks of an order that lead to a block. -/
def finders (f : Flow) (order : List Block) (x : Block) : List Block :=
  order.eraseDups.filter (x ∈ f.successors ·)

variable {f : Flow} {seen : List Block} {b x u : Block}

private theorem mem_finders : u ∈ f.finders seen x ↔ u ∈ seen ∧ x ∈ f.successors u := by
  simp [finders]

/-- A block that has come before is not counted again. -/
theorem finders_concat_of_mem (hb : b ∈ seen) : f.finders (seen ++ [b]) x = f.finders seen x := by
  simp [finders, Preorder.eraseDups_concat, hb]

/-- A new block counts if it leads there. -/
theorem finders_concat (hb : b ∉ seen) :
    f.finders (seen ++ [b]) x = f.finders seen x ++ if x ∈ f.successors b then [b] else [] := by
  rw [finders, Preorder.eraseDups_concat, if_neg hb, List.filter_append, List.filter_singleton]
  simp [finders]

end Flow

namespace Preorder

variable {f : Flow} {roots seen : List Block} {p q : Preorder} {b x : Block} {below : List Block}

/-- An unvisited block is pushed once if it is offered at all. -/
theorem count_pushes {visited : BlockSet} (cs : List Block) (hx : visited.contains x = false) :
    (pushes visited cs).count x = if x ∈ cs then 1 else 0 := by
  have hnodup : (pushes visited cs).Nodup :=
    (List.pairwise_reverse.mpr ((nodup_eraseDups cs).imp Ne.symm)).filter _
  rw [hnodup.count]
  simp [mem_pushes, hx]

/-- Offering blocks that are visited, or whose edge is taken, changes nothing. -/
theorem foldl_offer_of_done {cs : List Block}
    (h : ∀ c ∈ cs, p.visited.contains c = true ∨ p.taken.contains ⟨b, c⟩ = true) :
    cs.foldl (offer b) p = p := by
  induction cs with
  | nil => rfl
  | cons c cs ih =>
    have hc : offer b p c = p := by
      unfold offer
      rw [if_pos (by simpa using h c List.mem_cons_self)]
    rw [List.foldl_cons, hc]
    exact ih fun d hd => h d (List.mem_cons_of_mem _ hd)

/-- Dropping visited blocks leaves all entries of any other block. -/
theorem count_settle (hx : p.visited.contains x = false) :
    p.settle.stack.count x = p.stack.count x := by
  have hnone : (p.stack.takeWhile p.visited.contains).count x = 0 := by
    rw [List.count_eq_zero]
    intro hmem
    rw [List.mem_takeWhile_imp hmem] at hx
    cases hx
  have hsplit := congrArg (List.count x)
    (List.takeWhile_append_dropWhile (p := p.visited.contains) (l := p.stack))
  rw [List.count_append, hnone, Nat.zero_add] at hsplit
  exact hsplit

/-- A traversal of any flow that has made the visits `seen`. Blocks of the graph were visited at most
once. For a block past the count, visits and entries on the stack balance the blocks that lead to it. -/
structure Balanced (f : Flow) (roots seen : List Block) (p : Preorder) : Prop where
  sized : p.visited.Sized
  capacity : p.visited.capacity = f.blockCount
  visited : ∀ b, p.visited.contains b = true ↔ b ∈ seen ∧ f.has b = true
  taken : ∀ e, p.taken.contains e = true → e.source ∈ seen
  offered : ∀ u ∈ seen, ∀ c ∈ f.successors u,
    p.visited.contains c = true ∨ p.taken.contains ⟨u, c⟩ = true
  reached : ∀ b, b ∈ seen ∨ b ∈ p.stack → f.Reaches roots b
  rooted : ∀ r ∈ f.validRoots roots, r ∈ seen ∨ r ∈ p.stack
  complete : ∀ u ∈ seen, ∀ c ∈ f.successors u, c ∈ seen ∨ c ∈ p.stack
  once : ∀ b, f.has b = true → seen.count b ≤ 1
  balance : ∀ x, f.has x = false →
    seen.count x + p.stack.count x = (f.finders seen x).length

/-- A traversal begins with the roots, all of which belong to the graph. -/
theorem balanced_start (f : Flow) (roots : List Block) : Balanced f roots [] (start f roots) where
  sized := BlockSet.sized_empty _
  capacity := rfl
  visited b := by simp [start]
  taken e he := by simp [start] at he
  offered u hu := by cases hu
  reached b hb := by
    apply Flow.reaches_of_mem
    simpa [start] using hb
  rooted r hr := by simp [start, hr]
  complete u hu := by cases hu
  once b _ := by simp
  balance x hx := by
    have hnot : x ∉ f.validRoots roots := by simp [Flow.validRoots, hx]
    simpa [start, Flow.finders, List.count_eq_zero] using hnot

namespace Balanced

/-- A block past the count is never marked. -/
theorem unmarked (h : Balanced f roots seen p) (hx : f.has x = false) :
    p.visited.contains x = false := by
  rw [← Bool.not_eq_true, h.visited, hx]
  simp

/-- Dropping visited blocks from the top of the stack. -/
theorem settle (h : Balanced f roots seen p) : Balanced f roots seen p.settle := by
  have hsub : ∀ b, b ∈ p.settle.stack → b ∈ p.stack :=
    fun b hb => (List.dropWhile_sublist p.visited.contains).subset hb
  have hkeep : ∀ b, b ∈ seen ∨ b ∈ p.stack → b ∈ seen ∨ b ∈ p.settle.stack := by
    intro b hb
    by_cases hv : p.visited.contains b = true
    · exact .inl ((h.visited b).mp hv).1
    · exact hb.imp_right fun hs => mem_dropWhile hs (by simpa using hv)
  exact { h with
    reached := fun b hb => h.reached b (hb.imp_right (hsub b))
    rooted := fun r hr => hkeep r (h.rooted r hr)
    complete := fun u hu c hc => hkeep c (h.complete u hu c hc)
    balance := fun x hx => by
      rw [count_settle (h.unmarked hx)]
      exact h.balance x hx }

/-- Whatever has been met stays met when the top of the stack is visited. -/
private theorem met_mono (hs : p.stack = b :: below) (hq : below ⊆ q.stack) (c : Block)
    (hc : c ∈ seen ∨ c ∈ p.stack) : c ∈ seen ++ [b] ∨ c ∈ q.stack := by
  rw [hs, List.mem_cons] at hc
  rw [List.mem_append, List.mem_singleton]
  rcases hc with hc | hc | hc
  · exact .inl (.inl hc)
  · exact .inl (.inr hc)
  · exact .inr (hq hc)

section

variable (h : Balanced f roots seen p) (hs : p.stack = b :: below)
  (ho : Offered b (f.successors b) { p with stack := below, visited := p.visited.insert b } q)
include h ho

/-- A visit marks the block if it can be marked. -/
theorem mark (c : Block) : q.visited.contains c = true ↔ c ∈ seen ++ [b] ∧ f.has c = true := by
  rw [ho.visited, BlockSet.contains_insert h.sized, h.capacity]
  have hv := h.visited c
  grind [Flow.has]

/-- After a visit, every successor of a visited block is marked, or the edge to it is taken. -/
theorem offered_first {u c : Block} (hu : u ∈ seen ++ [b]) (hc : c ∈ f.successors u) :
    q.visited.contains c = true ∨ q.taken.contains ⟨u, c⟩ = true := by
  cases hv : q.visited.contains c with
  | true => exact .inl rfl
  | false =>
    rw [ho.taken, ← ho.visited]
    rcases List.mem_append.mp hu with hu | hu
    · rcases h.offered u hu c hc with hold | hold
      · have hseen := (h.visited c).mp hold
        rw [(h.mark ho c).mpr ⟨List.mem_append_left _ hseen.1, hseen.2⟩] at hv
        cases hv
      · exact .inr (.inl hold)
    · cases List.mem_singleton.mp hu
      exact .inr (.inr ⟨rfl, hc, hv⟩)

include hs

/-- A first visit uses up an entry of the block and adds one for everything that it leads to. -/
theorem balance_first (hb : b ∉ seen) (hx : f.has x = false) :
    (seen ++ [b]).count x + q.stack.count x = (f.finders (seen ++ [b]) x).length := by
  have hv : q.visited.contains x = false := by
    rw [← Bool.not_eq_true, h.mark ho, hx]
    simp
  have hold := h.balance x hx
  rw [hs, List.count_cons] at hold
  rw [ho.stack, ← ho.visited, List.count_append, List.count_append, count_pushes _ hv,
    Flow.finders_concat hb, List.length_append, List.count_singleton]
  by_cases hsucc : x ∈ f.successors b
  · simp only [if_pos hsucc, List.length_singleton]
    omega
  · simp only [if_neg hsucc, List.length_nil]
    omega

/-- Visiting a block for the first time: it is marked if it can be, and what it leads to is offered. -/
theorem first (hb : b ∉ seen) : Balanced f roots (seen ++ [b]) q := by
  have hstack : q.stack = pushes q.visited (f.successors b) ++ below := by
    rw [ho.stack, ho.visited]
  have hbelow : below ⊆ q.stack := by
    rw [hstack]
    exact List.subset_append_right _ _
  have hreached : f.Reaches roots b := h.reached b (.inr (by simp [hs]))
  refine ⟨?_, ?_, h.mark ho, ?_, fun u hu c hc => h.offered_first ho hu hc, ?_, ?_, ?_, ?_,
    fun x hx => h.balance_first hs ho hb hx⟩
  · rw [ho.visited]
    exact BlockSet.sized_insert h.sized b
  · rw [ho.visited, BlockSet.capacity_insert]
    exact h.capacity
  · intro e he
    rcases (ho.taken e).mp he with he | ⟨he, _⟩
    · exact List.mem_append_left _ (h.taken e he)
    · simp [he]
  · intro c hc
    rw [hstack, List.mem_append, List.mem_append, List.mem_singleton] at hc
    rcases hc with (hc | rfl) | hc | hc
    · exact h.reached c (.inl hc)
    · exact hreached
    · exact hreached.successor (mem_pushes.mp hc).1
    · exact h.reached c (.inr (by simp [hs, hc]))
  · intro r hr
    exact met_mono hs hbelow r (h.rooted r hr)
  · intro u hu c hc
    rcases List.mem_append.mp hu with hu | hu
    · exact met_mono hs hbelow c (h.complete u hu c hc)
    · cases List.mem_singleton.mp hu
      cases hv : q.visited.contains c with
      | true => exact .inl ((h.mark ho c).mp hv).1
      | false =>
        rw [hstack]
        exact .inr (List.mem_append_left _ (mem_pushes.mpr ⟨hc, hv⟩))
  · intro c hc
    have hle := h.once c hc
    have hzero : seen.count b = 0 := List.count_eq_zero.mpr hb
    rw [List.count_append, List.count_singleton]
    by_cases he : b = c
    · subst he
      simp [hzero]
    · simp [he, hle]

end

/-- Visiting a block again: it is past the count, and everything that it leads to is marked or its edge
has been taken, so nothing changes but the entry that is used up. -/
theorem again (h : Balanced f roots seen p) (hs : p.stack = b :: below) (hb : b ∈ seen)
    (hx : f.has b = false) : Balanced f roots (seen ++ [b]) { p with stack := below } := by
  have hmem : ∀ c, c ∈ seen ++ [b] ↔ c ∈ seen := by
    intro c
    rw [List.mem_append, List.mem_singleton]
    exact ⟨fun hc => hc.elim id fun he => he ▸ hb, .inl⟩
  refine ⟨h.sized, h.capacity, ?_, ?_, ?_, ?_, ?_, ?_, ?_, ?_⟩
  · intro c
    rw [hmem]
    exact h.visited c
  · intro e he
    exact (hmem _).mpr (h.taken e he)
  · intro u hu
    exact h.offered u ((hmem u).mp hu)
  · intro c hc
    apply h.reached
    rw [hs]
    exact hc.imp (hmem c).mp (List.mem_cons_of_mem _)
  · intro r hr
    exact met_mono hs (List.Subset.refl _) r (h.rooted r hr)
  · intro u hu c hc
    exact met_mono hs (List.Subset.refl _) c (h.complete u ((hmem u).mp hu) c hc)
  · intro c hc
    have hne : b ≠ c := fun he => by simp [← he, hx] at hc
    simpa [List.count_append, List.count_singleton, hne] using h.once c hc
  · intro x hx
    have hold := h.balance x hx
    rw [hs, List.count_cons] at hold
    rw [Flow.finders_concat_of_mem hb, List.count_append, List.count_singleton]
    show seen.count x + _ + below.count x = _
    omega

/-- One visit of a traversal. -/
theorem next (h : Balanced f roots seen p)
    (hfresh : ∀ b, p.stack.head? = some b → p.visited.contains b = false)
    (hq : next? f p = some (b, q)) :
    Balanced f roots (seen ++ [b]) q ∧
      ∀ c, q.stack.head? = some c → q.visited.contains c = false := by
  have hb : p.visited.contains b = false := hfresh b (head_of_next hq)
  unfold next? at hq
  split at hq
  · cases hq
  · next c below hs =>
    cases hq
    have hpush : Balanced f roots (seen ++ [b])
        ((f.successors b).foldl (offer b) { p with stack := below, visited := p.visited.insert b }) := by
      by_cases hseen : b ∈ seen
      · have hx : f.has b = false := by
          rw [← Bool.not_eq_true]
          intro hhas
          rw [(h.visited b).mpr ⟨hseen, hhas⟩] at hb
          cases hb
        have hinsert : p.visited.insert b = p.visited := by
          unfold BlockSet.insert
          rw [h.capacity, if_neg (of_decide_eq_false hx)]
        rw [hinsert, foldl_offer_of_done (p := { p with stack := below }) (h.offered b hseen)]
        exact h.again hs hseen hx
      · refine h.first hs (foldl_offer _ ?_ _) hseen
        intro c
        rw [← Bool.not_eq_true]
        exact fun ht => hseen (h.taken _ ht)
    exact ⟨hpush.settle, fun c => contains_head_settle⟩

/-- A traversal that goes on to its end keeps the balance. -/
theorem finish (h : Balanced f roots seen p)
    (hfresh : ∀ b, p.stack.head? = some b → p.visited.contains b = false) :
    ∃ q, q.stack = [] ∧ Balanced f roots (seen ++ rest f p) q := by
  fun_induction rest f p generalizing seen with
  | case1 p hq =>
    rw [List.append_nil]
    exact ⟨p, stack_of_next_none hq, h⟩
  | case2 p b q hq ih =>
    have hnext := h.next hfresh hq
    rw [List.append_cons]
    exact ih hnext.1 hnext.2

end Balanced
end Preorder

namespace Flow

variable {f : Flow} {roots : List Block} {b x : Block}

/-- A reached block is a root or has a reached block that leads to it. -/
theorem Reaches.root_or_successor (h : f.Reaches roots b) :
    b ∈ f.validRoots roots ∨ ∃ u, f.Reaches roots u ∧ b ∈ f.successors u := by
  obtain ⟨r, hr, p, w⟩ := h
  by_cases he : r = b
  · exact .inl (he ▸ hr)
  · obtain ⟨u, q, wq, hu, _⟩ := w.exists_pred he
    exact .inr ⟨u, ⟨r, hr, q, wq⟩, hu⟩

/-- Every block that leads somewhere does so along an edge of its own. -/
theorem length_finders_le (f : Flow) (order : List Block) (x : Block) :
    (f.finders order x).length ≤ (f.edges.eraseDups.map Edge.target).count x := by
  have hnodup : ((f.finders order x).map (Edge.mk · x)).Nodup := by
    apply ((Preorder.nodup_eraseDups order).filter _).map
    intro u v he
    exact congrArg Edge.source he
  have hsub : (f.finders order x).map (Edge.mk · x) ⊆ f.edges.eraseDups.filter (·.target == x) := by
    intro e he
    obtain ⟨u, hu, rfl⟩ := List.mem_map.mp he
    simp [(mem_finders.mp hu).2]
  have hle := hnodup.length_le_of_subset hsub
  rw [List.length_map, ← List.countP_eq_length_filter] at hle
  rw [List.count_eq_countP, List.countP_map]
  exact hle

/-- A block of the graph is visited at most once. A block past the count has one visit for each
different block that leads to it. Exactly the reached blocks are visited at all. -/
theorem balanced_preorder (f : Flow) (roots : List Block) :
    (∀ b, f.has b = true → (f.preorder roots).count b ≤ 1) ∧
    (∀ x, f.has x = false → (f.preorder roots).count x = (f.finders (f.preorder roots) x).length) ∧
    (∀ b, b ∈ f.preorder roots ↔ f.Reaches roots b) := by
  have hfresh : ∀ b, (Preorder.start f roots).stack.head? = some b →
      (Preorder.start f roots).visited.contains b = false := by simp [Preorder.start]
  obtain ⟨q, hq, h⟩ := (Preorder.balanced_start f roots).finish hfresh
  change Preorder.Balanced f roots (f.preorder roots) q at h
  have hmet : ∀ b, b ∈ f.preorder roots ∨ b ∈ q.stack → b ∈ f.preorder roots := by simp [hq]
  refine ⟨h.once, fun x hx => ?_, fun b => ⟨fun hb => h.reached b (.inl hb), ?_⟩⟩
  · have hsum := h.balance x hx
    rwa [hq, List.count_nil, Nat.add_zero] at hsum
  · rintro ⟨r, hr, p, w⟩
    have hmem : r ∈ f.preorder roots := hmet r (h.rooted r hr)
    clear hr
    induction w with
    | single => exact hmem
    | step hc _ ih => exact ih (hmet _ (h.complete _ hmem _ hc))

/-- Every visit has a root or an edge of its own. -/
theorem length_preorder_le_edges (f : Flow) (roots : List Block) :
    (f.preorder roots).length ≤ (f.validRoots roots).eraseDups.length + f.edges.eraseDups.length := by
  have h := balanced_preorder f roots
  have hsub : (f.preorder roots).Subperm
      ((f.validRoots roots).eraseDups ++ f.edges.eraseDups.map Edge.target) := by
    rw [List.subperm_ext_iff]
    intro b hb
    rw [List.count_append]
    cases hhas : f.has b with
    | true =>
      have hle := h.1 b hhas
      rcases ((h.2.2 b).mp hb).root_or_successor with hr | ⟨u, _, hu⟩
      · have hpos : 0 < (f.validRoots roots).eraseDups.count b :=
          List.count_pos_iff.mpr (List.mem_eraseDups.mpr hr)
        omega
      · have hpos : 0 < (f.edges.eraseDups.map Edge.target).count b := by
          rw [List.count_pos_iff, List.mem_map]
          exact ⟨⟨u, b⟩, by simpa using hu, rfl⟩
        omega
    | false =>
      have hle := f.length_finders_le (f.preorder roots) b
      have heq := h.2.1 b hhas
      omega
  simpa using hsub.length_le

/-- The visits of a traversal of any flow from any roots. The traversal ends, after no more visits than
there are different roots of the graph and different edges. It visits exactly the reached blocks: one
that belongs to the graph once, and one past the count as often as there are different visited blocks
that lead to it. -/
theorem preorder_multiplicities (f : Flow) (roots : List Block) :
    let visits := f.preorder roots
    let most := (f.validRoots roots).eraseDups.length + f.edges.eraseDups.length
    Strict.visits f (most + 1) none (Preorder.start f roots) = some visits ∧
    (∀ b, f.has b = true → f.Reaches roots b → visits.count b = 1) ∧
    (∀ x, f.has x = false → visits.count x = (f.finders visits x).length) ∧
    (∀ b, b ∈ visits ↔ f.Reaches roots b) ∧
    visits.length ≤ most := by
  intro visits most
  have h := balanced_preorder f roots
  have hmost : visits.length ≤ most := length_preorder_le_edges f roots
  refine ⟨?_, fun b hhas hb => ?_, h.2.1, h.2.2, hmost⟩
  · exact @Strict.visits_eq_some f (Preorder.start f roots) none (most + 1) (Nat.lt_succ_of_le hmost)
  · have hle : visits.count b ≤ 1 := h.1 b hhas
    have hpos : 0 < visits.count b := List.count_pos_iff.mpr ((h.2.2 b).mpr hb)
    omega

/-- Blocks 2 and 3 lie past the count and lead to each other and back into the graph. -/
def overrun : Flow := ofLists 2 #[[⟨2⟩, ⟨1⟩, ⟨2⟩], [⟨2⟩, ⟨0⟩], [⟨3⟩, ⟨2⟩, ⟨1⟩], [⟨2⟩]]

/-- Block 2 is visited four times, since both blocks of the graph, block 3 and block 2 itself lead to
it. A root that is named twice, or that the graph does not have, adds nothing. -/
theorem preorder_overrun :
    let visits := overrun.preorder [⟨0⟩, ⟨3⟩, ⟨0⟩]
    overrun.has ⟨2⟩ = false ∧ overrun.has ⟨1⟩ = true ∧ overrun.Reaches [⟨0⟩, ⟨3⟩, ⟨0⟩] ⟨1⟩ ∧
      visits.count ⟨1⟩ = 1 ∧ visits.count ⟨2⟩ = 4 ∧ visits.length ≤ 9 := by
  have h := preorder_multiplicities overrun [⟨0⟩, ⟨3⟩, ⟨0⟩]
  have hreach : overrun.Reaches [⟨0⟩, ⟨3⟩, ⟨0⟩] ⟨1⟩ :=
    ⟨⟨0⟩, by decide, [⟨0⟩, ⟨1⟩], .step (by decide) (.single ⟨1⟩)⟩
  have hfinders : (overrun.finders (overrun.preorder [⟨0⟩, ⟨3⟩, ⟨0⟩]) ⟨2⟩).length = 4 := by
    decide +kernel
  exact ⟨rfl, rfl, hreach, h.2.1 ⟨1⟩ rfl hreach, (h.2.2.1 ⟨2⟩ rfl).trans hfinders, h.2.2.2.2⟩

end Flow
end Dominance
