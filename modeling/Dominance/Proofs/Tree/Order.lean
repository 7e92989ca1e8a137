import Mathlib.Data.List.Nodup
import Dominance.Proofs.Tree.Above
import Dominance.Tree.Order

/-!
# The topological order

The descent that lists the blocks takes every position once. It carries two facts from step to step:
whatever hangs below a position already taken is taken or waits on the stack, and whatever is taken or
waits hangs below a position already taken. Hence nothing is missed, and nothing comes before its
immediate dominator.
-/

namespace Dominance
namespace Tree

/-- The block at position `w` hangs below the block at position `d`. -/
def Hangs (t : Tree) (w d : Nat) : Prop :=
  ∃ b c, t.blockAt? w = some b ∧ t.blockAt? d = some c ∧ t.idom? b = some c

/-- What holds when the positions in `out` have been taken and those in `stack` wait. -/
structure Descent (t : Tree) (out stack : List Nat) : Prop where
  nodup : (out ++ stack).Nodup
  inside : ∀ w ∈ out ++ stack, w < t.size
  tops : ∀ w ∈ t.tops, w ∈ out ++ stack
  children : ∀ w d, t.Hangs w d → d ∈ out → w ∈ out ++ stack
  parents : ∀ w d, t.Hangs w d → w ∈ out ++ stack → d ∈ out
  ordered : out.Pairwise fun w d => ¬t.Hangs w d

variable {t : Tree} {f : Flow} {roots : List Block} {b d : Block} {out stack : List Nat} {w : Nat}

/-- The descent begins at the blocks without immediate dominator. -/
theorem mem_tops : w ∈ t.tops ↔ ∃ b, t.blockAt? w = some b ∧ t.idom? b = none := by
  have hfree : ∀ b, t.idom.contains b = false ↔ t.idom? b = none := by
    intro b
    rw [Std.ExtTreeMap.contains_eq_isSome_getElem?, Option.isSome_eq_false_iff,
      Option.isNone_iff_eq_none]
    rfl
  unfold tops
  rw [List.mem_filter, List.mem_range]
  cases hb : t.blockAt? w with
  | none => simp
  | some b =>
    have hw : w < t.size := (Array.getElem?_eq_some_iff.mp hb).1
    simp [hw, hfree]

/-- The descent begins at each of its blocks once. -/
theorem nodup_tops (t : Tree) : t.tops.Nodup := List.nodup_range.filter _

/-- Nothing is taken yet, and what hangs nowhere waits. -/
theorem descent_start (t : Tree) : t.Descent [] t.tops where
  nodup := t.nodup_tops
  inside w hw := by
    rcases mem_tops.mp hw with ⟨b, hb, _⟩
    exact (Array.getElem?_eq_some_iff.mp hb).1
  tops _ hw := hw
  children _ _ _ hd := absurd hd List.not_mem_nil
  parents w d h hw := by
    rcases h with ⟨b, c, hb, _, hd⟩
    rcases mem_tops.mp hw with ⟨b', hb', hfree⟩
    rw [hb] at hb'
    cases hb'
    rw [hd] at hfree
    cases hfree
  ordered := .nil

/-- There are no more than `k` different positions below `k`. -/
theorem length_le_of_nodup {ws : List Nat} {k : Nat} (hd : ws.Nodup) (h : ∀ w ∈ ws, w < k) :
    ws.length ≤ k := by
  have hsub : ws ⊆ List.range k := fun w hw => List.mem_range.mpr (h w hw)
  have hle := hd.length_le_of_subset hsub
  rwa [List.length_range] at hle

/-- No more positions are taken or wait than there are. -/
theorem Descent.length_le (h : t.Descent out stack) : (out ++ stack).length ≤ t.size :=
  length_le_of_nodup h.nodup h.inside

/-- Taking a position adds what hangs below it to what is taken or waits. -/
theorem perm_take (out below stack : List Nat) (w : Nat) :
    ((out ++ [w]) ++ (below.reverse ++ stack)).Perm (below ++ (out ++ w :: stack)) := by
  apply (List.perm_append_comm_assoc _ _ _).trans
  rw [← List.append_cons]
  exact (List.reverse_perm _).append_right _

namespace Exact

variable (ht : t.Exact f roots)
include ht

/-- The children of a position are those that hang below it. -/
theorem mem_children (hw : w < t.size) {i : Nat} :
    i ∈ (t.children.getD w #[]).toList ↔ t.Hangs i w := by
  have hc : t.blockAt? w = some t.order[w] := Array.getElem?_eq_getElem hw
  rw [ht.mem_children_iff w i _ hc]
  constructor
  · rintro ⟨b, hb, hd⟩
    exact ⟨b, _, hb, hc, hd⟩
  · rintro ⟨b, c, hb, hc', hd⟩
    rw [hc] at hc'
    cases hc'
    exact ⟨b, hb, hd⟩

/-- A position hangs below one other position at most. -/
theorem hangs_unique {d e : Nat} (hd : t.Hangs w d) (he : t.Hangs w e) : d = e := by
  rcases hd with ⟨b, c, hb, hc, hd⟩
  rcases he with ⟨b', c', hb', hc', he⟩
  rw [hb] at hb'
  cases hb'
  rw [hd] at he
  cases he
  exact ht.blockAt?_inj hc hc'

/-- Taking one position. -/
theorem descent_step (h : t.Descent out (w :: stack)) :
    t.Descent (out ++ [w]) ((t.children.getD w #[]).toList.reverse ++ stack) := by
  have hw : w ∈ out ++ w :: stack := by simp
  have hws := h.inside w hw
  have hfresh : w ∉ out := by
    intro hmem
    exact (List.nodup_append.mp h.nodup).2.2 w hmem w List.mem_cons_self rfl
  have hmem : ∀ x, x ∈ (out ++ [w]) ++ ((t.children.getD w #[]).toList.reverse ++ stack) ↔
      t.Hangs x w ∨ x ∈ out ++ w :: stack := by
    intro x
    simp only [List.mem_append, List.mem_reverse, ht.mem_children hws, List.mem_cons,
      List.not_mem_nil, or_false]
    grind
  refine ⟨?_, ?_, ?_, ?_, ?_, ?_⟩
  · -- What hangs below `w` is new, because `w` was not taken before.
    rw [(perm_take out _ stack w).nodup_iff, List.nodup_append]
    refine ⟨(ht.children_ascending w hws).imp Nat.ne_of_lt, h.nodup, ?_⟩
    rintro x hx _ hx' rfl
    exact hfresh (h.parents x w ((ht.mem_children hws).mp hx) hx')
  · intro x hx
    rcases (hmem x).mp hx with ⟨b, _, hb, _, _⟩ | hx
    · exact (Array.getElem?_eq_some_iff.mp hb).1
    · exact h.inside x hx
  · intro x hx
    exact (hmem x).mpr (Or.inr (h.tops x hx))
  · intro x d hxd hd
    rw [List.mem_append, List.mem_singleton] at hd
    rcases hd with hd | rfl
    · exact (hmem x).mpr (Or.inr (h.children x d hxd hd))
    · exact (hmem x).mpr (Or.inl hxd)
  · intro x d hxd hx
    rw [List.mem_append, List.mem_singleton]
    rcases (hmem x).mp hx with hxw | hx
    · exact Or.inr (ht.hangs_unique hxd hxw)
    · exact Or.inl (h.parents x d hxd hx)
  · rw [List.pairwise_append]
    refine ⟨h.ordered, List.pairwise_singleton _ _, ?_⟩
    intro x hx y hy hxy
    rw [List.mem_singleton.mp hy] at hxy
    exact hfresh (h.parents x w hxy (List.mem_append_left _ hx))

/-- What taking a position preserves holds at the end of a descent with fuel for all positions, where the
stack is empty. -/
theorem descend_preserves {P : List Nat → List Nat → Prop}
    (step : ∀ out w stack, t.Descent out (w :: stack) → P out (w :: stack) →
      P (out ++ [w]) ((t.children.getD w #[]).toList.reverse ++ stack)) {fuel : Nat}
    (h : t.Descent out stack) (hP : P out stack) (hfuel : out.length + fuel = t.size) :
    P (out ++ t.descend fuel stack) [] := by
  induction fuel generalizing out stack with
  | zero =>
    have hle := h.length_le
    rw [List.length_append] at hle
    have hnil : stack = [] := List.eq_nil_of_length_eq_zero (by omega)
    rw [hnil] at hP
    rw [descend, List.append_nil]
    exact hP
  | succ fuel ih =>
    cases stack with
    | nil =>
      rw [descend, List.append_nil]
      exact hP
    | cons w stack =>
      rw [descend, List.append_cons]
      apply ih (ht.descent_step h) (step out w stack h hP)
      rw [List.length_append, List.length_singleton]
      omega

/-- The finished descent. -/
theorem descent_all : t.Descent (t.descend t.size t.tops) [] :=
  ht.descend_preserves (fun _ _ _ h _ => ht.descent_step h) t.descent_start t.descent_start
    (Nat.zero_add t.size)

/-- Every position of a block is taken. -/
theorem mem_descend {i : Nat} (hb : t.blockAt? i = some b) : i ∈ t.descend t.size t.tops := by
  have hall := ht.descent_all
  induction i using Nat.strongRecOn generalizing b with
  | ind i ih =>
    cases hd : t.idom? b with
    | none =>
      have := hall.tops i (mem_tops.mpr ⟨b, hb, hd⟩)
      rwa [List.append_nil] at this
    | some d =>
      rcases ht.idom_before b d i hb hd with ⟨j, hj, hji⟩
      have := hall.children i j ⟨b, d, hb, hj, hd⟩ (ih j hji hj)
      rwa [List.append_nil] at this

/-- The topological order holds the reached blocks. -/
theorem mem_topological : b ∈ t.topological ↔ f.Reaches roots b := by
  unfold topological
  rw [List.mem_filterMap]
  constructor
  · rintro ⟨i, _, hi⟩
    exact ht.reaches_of_blockAt? hi
  · intro hb
    rcases ht.exists_position hb with ⟨i, hi⟩
    exact ⟨i, ht.mem_descend hi, hi⟩

/-- The topological order has no repetitions. -/
theorem nodup_topological : t.topological.Nodup := by
  have hnodup := ht.descent_all.nodup
  rw [List.append_nil] at hnodup
  exact hnodup.filterMap fun _ _ _ hi hj => ht.blockAt?_inj hi hj

/-- Nothing comes before its immediate dominator in the topological order. -/
theorem pairwise_topological : t.topological.Pairwise fun b d => t.idom? b ≠ some d := by
  unfold topological
  rw [List.pairwise_filterMap]
  apply ht.descent_all.ordered.imp
  intro w d h b hb c hc hd
  exact h ⟨b, c, hb, hc, hd⟩

/-- No block is visited twice. -/
theorem nodup_order : t.order.toList.Nodup := by
  rw [List.Nodup, List.pairwise_iff_getElem]
  intro i j hi hj hij he
  rw [Array.getElem_toList, Array.getElem_toList] at he
  rw [Array.length_toList] at hi hj
  have hbi : t.blockAt? i = some t.order[j] := he ▸ Array.getElem?_eq_getElem hi
  have := ht.blockAt?_inj hbi (Array.getElem?_eq_getElem hj)
  omega

/-- The visits are those of the reached blocks. -/
theorem mem_order : b ∈ t.order.toList ↔ f.Reaches roots b := by
  rw [List.mem_iff_getElem?]
  simp only [Array.getElem?_toList]
  constructor
  · rintro ⟨i, hi⟩
    exact ht.reaches_of_blockAt? hi
  · exact ht.exists_position

/-- The topological order is a rearrangement of the visits. -/
theorem perm_topological : t.topological.Perm t.order.toList := by
  rw [List.perm_ext_iff_of_nodup ht.nodup_topological ht.nodup_order]
  intro b
  rw [ht.mem_topological, ht.mem_order]

/-- The topological order is as long as the tree is large. -/
theorem length_topological : t.topological.length = t.size := by
  rw [ht.perm_topological.length_eq, Array.length_toList]
  rfl

end Exact
end Tree
end Dominance
