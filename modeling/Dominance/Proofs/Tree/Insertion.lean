import Dominance.Proofs.Tree.Order
import Dominance.Tree.Insertion

/-!
# The topological order by insertion

Taking a position in the descent puts what hangs below it directly behind it, the greatest position
first. Hence nothing but greater positions ever stands between a position and the one that it hangs
below, and nothing but greater positions stands behind one that hangs nowhere. Leaving out all positions
from some position on therefore gives the order in which the blocks before that position were inserted.
-/

namespace Dominance

private theorem insertAfter_append {d b : Block} {xs ys : List Block} (hd : d ∉ xs) :
    insertAfter d b (xs ++ d :: ys) = xs ++ d :: b :: ys := by
  induction xs with
  | nil => simp [insertAfter]
  | cons x xs ih =>
    rw [List.mem_cons, not_or] at hd
    rw [List.cons_append, insertAfter, if_neg (Ne.symm hd.1), ih hd.2]
    rfl

namespace Tree

/-- Between a position and the one that it hangs below there are greater positions only, and behind a
position that hangs nowhere as well. -/
structure Packed (t : Tree) (xs : List Nat) : Prop where
  below : ∀ w d, t.Hangs w d → w ∈ xs →
    ∃ l m r, xs = l ++ d :: (m ++ w :: r) ∧ ∀ x ∈ m, w < x
  top : ∀ w ∈ t.tops, ∃ l r, xs = l ++ w :: r ∧ ∀ x ∈ r, w < x

/-- A position, followed by the positions in `below` if it is `w`. -/
def graft (w : Nat) (below : List Nat) (x : Nat) : List Nat := x :: if x = w then below else []

variable {t : Tree} {f : Flow} {roots : List Block} {b d : Block} {below out stack xs : List Nat}
  {k w x : Nat}

private theorem flatMap_graft_of_not_mem (hw : w ∉ xs) : xs.flatMap (graft w below) = xs := by
  induction xs with
  | nil => rfl
  | cons x xs ih =>
    rw [List.mem_cons, not_or] at hw
    rw [List.flatMap_cons, graft, if_neg (Ne.symm hw.1), ih hw.2]
    rfl

/-- Taking a position grafts what hangs below it. -/
theorem flatMap_graft_append (below : List Nat) (hd : (out ++ w :: stack).Nodup) :
    (out ++ w :: stack).flatMap (graft w below) = (out ++ [w]) ++ (below ++ stack) := by
  obtain ⟨_, hstack, hout⟩ := List.nodup_append.mp hd
  have hw : w ∉ out := fun hmem => hout w hmem w List.mem_cons_self rfl
  rw [List.flatMap_append, List.flatMap_cons, flatMap_graft_of_not_mem hw,
    flatMap_graft_of_not_mem (List.nodup_cons.mp hstack).1, graft, if_pos rfl]
  simp

/-- What is grafted is greater than what it is grafted to. -/
theorem lt_of_mem_graft (hbelow : ∀ c ∈ below, w < c) (hk : k ≤ x) {y : Nat}
    (hy : y ∈ if x = w then below else []) : k < y := by
  split at hy
  · next he =>
    have := hbelow y hy
    omega
  · cases hy

/-- Grafting keeps a list above some position. -/
theorem lt_of_mem_flatMap_graft (hbelow : ∀ c ∈ below, w < c) (hxs : ∀ x ∈ xs, k < x)
    (hx : x ∈ xs.flatMap (graft w below)) : k < x := by
  obtain ⟨y, hy, hxy⟩ := List.mem_flatMap.mp hx
  have hky := hxs y hy
  rcases List.mem_cons.mp hxy with rfl | hmem
  · exact hky
  · exact lt_of_mem_graft hbelow (Nat.le_of_lt hky) hmem

/-- Nothing is taken yet, and the positions that hang nowhere ascend. -/
theorem packed_tops (t : Tree) : t.Packed t.tops where
  below w d h hw := by cases t.descent_start.parents w d h hw
  top w hw := by
    obtain ⟨l, r, h⟩ := List.append_of_mem hw
    refine ⟨l, r, h, ?_⟩
    have hasc : t.tops.Pairwise (· < ·) := List.pairwise_lt_range.filter _
    rw [h] at hasc
    exact (List.pairwise_cons.mp (List.pairwise_append.mp hasc).2.1).1

/-- The blocks before position `k`, in the topological order. -/
def blocksBefore (t : Tree) (k : Nat) : List Block :=
  ((t.descend t.size t.tops).filter (· < k)).filterMap t.blockAt?

private theorem filter_lt_succ (hk : k ∉ xs) : xs.filter (· < k + 1) = xs.filter (· < k) := by
  apply List.filter_congr
  intro x hx
  have hne : x ≠ k := fun he => hk (he ▸ hx)
  rw [decide_eq_decide]
  omega

private theorem filter_lt_eq_nil {j : Nat} (hxs : ∀ x ∈ xs, k < x) (hj : j ≤ k + 1) :
    xs.filter (· < j) = [] := by
  rw [List.filter_eq_nil_iff]
  intro x hx
  have := hxs x hx
  simp only [decide_eq_true_eq]
  omega

/-- Where only greater positions stand behind `k`, it comes last among the positions up to `k`. -/
theorem filter_lt_append_cons {l r : List Nat} (hl : k ∉ l) (hr : ∀ x ∈ r, k < x) :
    (l ++ k :: r).filter (· < k) = l.filter (· < k) ∧
      (l ++ k :: r).filter (· < k + 1) = l.filter (· < k) ++ [k] := by
  constructor
  · rw [List.filter_append, List.filter_cons_of_neg (by simp), filter_lt_eq_nil hr (Nat.le_succ k),
      List.append_nil]
  · rw [List.filter_append, List.filter_cons_of_pos (by simp), filter_lt_succ hl,
      filter_lt_eq_nil hr (Nat.le_refl (k + 1))]

/-- Where only greater positions stand between `j` and `k`, the latter comes directly after the former
among the positions up to `k`. -/
theorem filter_lt_append_between {j : Nat} {l m r : List Nat} (hjk : j < k) (hl : k ∉ l)
    (hm : ∀ x ∈ m, k < x) (hr : k ∉ r) :
    (l ++ j :: (m ++ k :: r)).filter (· < k) = l.filter (· < k) ++ j :: r.filter (· < k) ∧
      (l ++ j :: (m ++ k :: r)).filter (· < k + 1) =
        l.filter (· < k) ++ j :: k :: r.filter (· < k) := by
  constructor
  · rw [List.filter_append, List.filter_cons_of_pos (by simpa using hjk), List.filter_append,
      filter_lt_eq_nil hm (Nat.le_succ k), List.nil_append, List.filter_cons_of_neg (by simp)]
  · rw [List.filter_append, List.filter_cons_of_pos (by simpa using Nat.lt_succ_of_lt hjk),
      List.filter_append, filter_lt_eq_nil hm (Nat.le_refl (k + 1)), List.nil_append,
      List.filter_cons_of_pos (by simp), filter_lt_succ hl, filter_lt_succ hr]

namespace Exact

variable (ht : t.Exact f roots)
include ht

private theorem lt_of_hangs {d : Nat} (h : t.Hangs w d) : d < w := by
  obtain ⟨b, c, hb, hc, hd⟩ := h
  obtain ⟨j, hj, hjw⟩ := ht.idom_before b c w hb hd
  rwa [ht.blockAt?_inj hc hj]

/-- Taking one position keeps the list packed. -/
theorem packed_step (h : t.Descent out (w :: stack)) (hp : t.Packed (out ++ w :: stack)) :
    t.Packed ((out ++ [w]) ++ ((t.children.getD w #[]).toList.reverse ++ stack)) := by
  have hws := h.inside w (by simp)
  have hchild : ∀ c, c ∈ (t.children.getD w #[]).toList.reverse ↔ t.Hangs c w := by
    intro c
    rw [List.mem_reverse, ht.mem_children hws]
  have hdesc : (t.children.getD w #[]).toList.reverse.Pairwise (· > ·) :=
    List.pairwise_reverse.mpr (ht.children_ascending w hws)
  generalize (t.children.getD w #[]).toList.reverse = below at hchild hdesc
  have hlt : ∀ c ∈ below, w < c := fun c hc => ht.lt_of_hangs ((hchild c).mp hc)
  have hgraft := flatMap_graft_append below h.nodup
  refine ⟨fun k d hkd hk => ?_, fun k hk => ?_⟩
  · by_cases hnew : k ∈ below
    · obtain ⟨m, r, rfl⟩ := List.append_of_mem hnew
      obtain rfl := ht.hangs_unique hkd ((hchild k).mp hnew)
      refine ⟨out, m, r ++ stack, by simp, fun x hx => ?_⟩
      exact (List.pairwise_append.mp hdesc).2.2 x hx k List.mem_cons_self
    · have hold : k ∈ out ++ w :: stack := by
        simp only [List.mem_append, List.mem_cons] at hk ⊢
        grind
      obtain ⟨l, m, r, hxs, hm⟩ := hp.below k d hkd hold
      -- All that hangs below `w` is new, so nothing is grafted directly behind `d`.
      have hdw : d ≠ w := by
        rintro rfl
        exact hnew ((hchild k).mpr hkd)
      refine ⟨l.flatMap (graft w below), m.flatMap (graft w below),
        (if k = w then below else []) ++ r.flatMap (graft w below), ?_,
        fun x hx => lt_of_mem_flatMap_graft hlt hm hx⟩
      rw [← hgraft, hxs]
      simp [graft, hdw]
  · obtain ⟨l, r, hxs, hr⟩ := hp.top k hk
    refine ⟨l.flatMap (graft w below),
      (if k = w then below else []) ++ r.flatMap (graft w below), ?_, fun x hx => ?_⟩
    · rw [← hgraft, hxs]
      simp [graft]
    · rcases List.mem_append.mp hx with hx | hx
      · exact lt_of_mem_graft hlt (Nat.le_refl k) hx
      · exact lt_of_mem_flatMap_graft hlt hr hx

/-- The finished descent is packed. -/
theorem packed_descend : t.Packed (t.descend t.size t.tops) := by
  have h := ht.descend_preserves (P := fun out stack => t.Packed (out ++ stack))
    (fun _ _ _ h hp => ht.packed_step h hp) t.descent_start t.packed_tops (Nat.zero_add t.size)
  rwa [List.append_nil] at h

/-- Inserting the block at position `k` into the blocks before `k`. -/
theorem place_blocksBefore (hb : t.blockAt? k = some b) :
    t.place (t.blocksBefore k) b = t.blocksBefore (k + 1) := by
  have hnodup := ht.descent_all.nodup
  rw [List.append_nil] at hnodup
  have hmem := ht.mem_descend hb
  have hpacked := ht.packed_descend
  unfold place blocksBefore
  generalize t.descend t.size t.tops = xs at hnodup hmem hpacked ⊢
  cases hd : t.idom? b with
  | none =>
    obtain ⟨l, r, rfl, hr⟩ := hpacked.top k (mem_tops.mpr ⟨b, hb, hd⟩)
    have hl : k ∉ l := fun h => (List.nodup_append.mp hnodup).2.2 k h k List.mem_cons_self rfl
    obtain ⟨hbefore, hafter⟩ := filter_lt_append_cons hl hr
    rw [hbefore, hafter]
    simp [hb]
  | some c =>
    obtain ⟨j, hj, hjk⟩ := ht.idom_before b c k hb hd
    obtain ⟨l, m, r, rfl, hm⟩ := hpacked.below k j ⟨b, c, hb, hj, hd⟩ hmem
    have hl : k ∉ l ∧ j ∉ l ∧ k ∉ r := by
      simp only [List.nodup_append, List.nodup_cons, List.mem_append, List.mem_cons] at hnodup
      grind
    have hc : c ∉ (l.filter (· < k)).filterMap t.blockAt? := by
      rw [List.mem_filterMap]
      rintro ⟨i, hi, hic⟩
      rw [ht.blockAt?_inj hic hj] at hi
      exact hl.2.1 (List.mem_filter.mp hi).1
    obtain ⟨hbefore, hafter⟩ := filter_lt_append_between hjk hl.1 hm hl.2.2
    rw [hbefore, hafter]
    simp only [List.filterMap_append, List.filterMap_cons, hj, hb]
    exact insertAfter_append hc

/-- Inserting the blocks of the first `k` visits. -/
theorem foldl_place_take (hk : k ≤ t.size) :
    (t.order.toList.take k).foldl t.place [] = t.blocksBefore k := by
  induction k with
  | zero => simp [blocksBefore]
  | succ k ih =>
    have hb : t.blockAt? k = some t.order[k] := Array.getElem?_eq_getElem hk
    have hlt : k < t.order.toList.length := by rwa [Array.length_toList]
    rw [List.take_succ_eq_append_getElem hlt, List.foldl_append, ih (Nat.le_of_succ_le hk),
      Array.getElem_toList]
    exact ht.place_blocksBefore hb

/-- The topological order is the order by insertion. -/
theorem topological_eq_insertionOrder : t.topological = t.insertionOrder := by
  have hall : (t.descend t.size t.tops).filter (· < t.size) = t.descend t.size t.tops := by
    rw [List.filter_eq_self]
    intro w hw
    exact decide_eq_true (ht.descent_all.inside w (List.mem_append_left _ hw))
  have htake : t.order.toList.take t.size = t.order.toList := List.take_of_length_le (Nat.le_refl _)
  rw [insertionOrder, ← htake, ht.foldl_place_take (Nat.le_refl _), blocksBefore, hall]
  rfl

/-- The immediate dominator of a block is there when the block is inserted. -/
theorem idom_mem_foldl_place (hb : t.blockAt? k = some b) (hd : t.idom? b = some d) :
    d ∈ (t.order.toList.take k).foldl t.place [] := by
  obtain ⟨j, hj, hjk⟩ := ht.idom_before b d k hb hd
  have hk : k < t.size := (Array.getElem?_eq_some_iff.mp hb).1
  rw [ht.foldl_place_take (Nat.le_of_lt hk), blocksBefore, List.mem_filterMap]
  exact ⟨j, List.mem_filter.mpr ⟨ht.mem_descend hj, decide_eq_true hjk⟩, hj⟩

/-- The immediate dominator of a block stands before it. -/
theorem exists_split_topological (hd : t.idom? b = some d) :
    ∃ l m r, t.topological = l ++ d :: (m ++ b :: r) := by
  obtain ⟨k, hb⟩ := ht.exists_position (ht.reaches_of_idom? b d hd)
  obtain ⟨j, hj, _⟩ := ht.idom_before b d k hb hd
  obtain ⟨l, m, r, hxs, _⟩ := ht.packed_descend.below k j ⟨b, d, hb, hj, hd⟩ (ht.mem_descend hb)
  refine ⟨l.filterMap t.blockAt?, m.filterMap t.blockAt?, r.filterMap t.blockAt?, ?_⟩
  rw [topological, hxs]
  simp [hj, hb]

end Exact

/-- The topological order of a tree built from an in-range flow is the order obtained by going through
the visits and inserting each block directly after its immediate dominator, which is there already, or
at the end if it has none. It lists exactly the reached blocks, each once and each after its immediate
dominator; the reverse topological order is the same order backwards. -/
theorem topological_build (f : Flow) (hf : f.InRange) (roots : List Block) :
    let t := (build f roots).value
    t.order.toList = f.preorder roots ∧
    t.topological = t.insertionOrder ∧
    (∀ (k : Nat) b d, t.order[k]? = some b → t.idom? b = some d →
      d ∈ (t.order.toList.take k).foldl t.place []) ∧
    (∀ b, f.Reaches roots b → t.topological.count b = 1) ∧
    (∀ b, ¬f.Reaches roots b → b ∉ t.topological) ∧
    (∀ b d, t.idom? b = some d → ∃ l m r, t.topological = l ++ d :: (m ++ b :: r)) ∧
    t.reverseTopological = t.insertionOrder.reverse := by
  intro t
  have ht : t.Exact f roots := exact_build hf roots
  refine ⟨rfl, ht.topological_eq_insertionOrder, fun k b d => ht.idom_mem_foldl_place, ?_, ?_,
    fun b d => ht.exists_split_topological, ?_⟩
  · intro b hb
    exact List.count_eq_one_of_mem ht.nodup_topological (ht.mem_topological.mpr hb)
  · intro b hb hmem
    exact hb (ht.mem_topological.mp hmem)
  · rw [reverseTopological, ht.topological_eq_insertionOrder]

end Tree

/-- The first root is found below the second one, in the middle of the blocks that the second one
dominates. -/
def Flow.interleaved : Flow := ofLists 5 #[[⟨4⟩], [⟨2⟩], [⟨3⟩, ⟨0⟩]]

/-- The trees of the two roots are interleaved in the order of visits and apart in the topological
order. -/
theorem Tree.topological_interleaved :
    Flow.interleaved.InRange ∧
      let t := (build Flow.interleaved [⟨0⟩, ⟨1⟩]).value
      t.order = #[⟨1⟩, ⟨2⟩, ⟨0⟩, ⟨4⟩, ⟨3⟩] ∧ t.topological = [⟨1⟩, ⟨2⟩, ⟨3⟩, ⟨0⟩, ⟨4⟩] := by
  have hf : Flow.interleaved.InRange := Flow.inRange_ofLists (by decide)
  refine ⟨hf, by decide +kernel, ?_⟩
  rw [(topological_build Flow.interleaved hf [⟨0⟩, ⟨1⟩]).2.1]
  decide +kernel

end Dominance
