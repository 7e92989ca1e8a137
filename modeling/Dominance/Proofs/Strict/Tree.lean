import Dominance.Proofs.Strict.Sweep
import Dominance.Proofs.Tree.Places
import Dominance.Strict.Tree

/-!
# Strict tables

The tables of a finished sweep over a ranked numbering are made without looking up anything that is
absent. `Shaped` says what they have in common for all flows: tables fit together, positions that are
named exist, and every position hangs below one position at most, whatever number of times its block
was visited.
-/

namespace Dominance
namespace Tree

open Strict (Closed)

variable {n : Numbering} {s : Sweep} {roots : List Block} {b : Block} {d i w : Nat}
  {hs : Array Nat} {isRoot : Bool}

/-! ### Heads and places -/

private theorem read_parent (hn : n.Ranked) (hi : i < n.size) :
    n.parent[i + 1]? = some (n.parentOf (i + 1)) :=
  Strict.getElem?_of_lt (by rw [hn.parent_size]; omega) 0

private theorem strict_headStep (hn : n.Ranked) (h : Closed n.size hs) (hi : i < n.size) :
    Strict.headStep n hs i = some (headStep n hs i) ∧ Closed n.size (headStep n hs i) := by
  have hlt := hn.parent_lt (i + 1)
  unfold Strict.headStep headStep
  rw [read_parent hn hi]
  cases hp : n.parentOf (i + 1) with
  | zero => exact ⟨rfl, h⟩
  | succ p =>
    have hps : p < n.size := by omega
    simp only [Option.bind_eq_bind, Option.bind_some, h.read hps, h.write hi, true_and]
    exact h.set (h.lt p hps) i

/-- The heads of the depth-first trees are positions. -/
theorem strict_heads (hn : n.Ranked) :
    Strict.heads n = some (heads n) ∧ Closed n.size (heads n) :=
  Strict.foldlM_eq_some (fun _ _ hi h => strict_headStep hn h (List.mem_range.mp hi)) (.range _)

private theorem strict_placeOf (h : s.Bounded n) (hh : Closed n.size hs) (hi : i < n.size) :
    Strict.placeOf hs s isRoot i = some (placeOf hs s isRoot i) := by
  have hidom : s.idom[i + 1]? = some (s.idomOf (i + 1)) := h.idom.read (by omega)
  unfold Strict.placeOf placeOf
  rw [hidom]
  cases s.idomOf (i + 1) with
  | zero =>
    simp only [Option.bind_eq_bind, Option.bind_some, hh.read hi]
    split <;> rfl
  | succ d => rfl

private theorem strict_semiPosition (hn : n.Ranked) (h : s.Bounded n) (hh : Closed n.size hs)
    (hi : i < n.size) :
    Strict.semiPosition hs s isRoot i = some (semiPosition hs s isRoot i) := by
  have hsemi := (h.forest.ranked hn).read_semi (Nat.succ_lt_succ hi)
  unfold Strict.semiPosition semiPosition
  rw [hsemi]
  cases s.forest.semiOf (i + 1) with
  | zero =>
    simp only [Option.bind_eq_bind, Option.bind_some, hh.read hi]
    split <;> rfl
  | succ v => rfl

/-- Places are below positions. -/
theorem above_placeOf_lt (h : s.Bounded n) (hh : Closed n.size hs) (hi : i < n.size)
    (hd : (placeOf hs s isRoot i).above? = some d) : d < n.size := by
  have hlt := h.idom.lt (i + 1) (by omega)
  unfold placeOf Sweep.idomOf at hd
  split at hd
  · split at hd
    · cases hd
    · cases hd
      exact hh.lt i hi
  · next e he =>
    cases hd
    omega

/-- The positions that stand for semidominators. -/
theorem semiPosition_lt (hn : n.Ranked) (h : s.Bounded n) (hh : Closed n.size hs)
    (hi : i < n.size) : semiPosition hs s isRoot i < n.size := by
  have hlt := (h.forest.ranked hn).semi.lt (i + 1) (Nat.succ_lt_succ hi)
  unfold semiPosition Forest.semiOf
  split
  · split
    · exact hi
    · exact hh.lt i hi
  · next v hv => omega

/-! ### The tables -/

private theorem strict_hang {order : Array Block} {m : Std.ExtTreeMap Block Block}
    {x : Block × Place} (h : ∀ d, x.2.above? = some d → d < order.size) :
    Strict.hang order m x = some (hang order m x) := by
  unfold Strict.hang hang
  cases ha : x.2.above? with
  | none => rfl
  | some d =>
    simp only [Option.bind_eq_bind, Option.bind_some, Array.getElem?_eq_getElem (h d ha)]

private theorem strict_adopt {ch : Array (Array Nat)} {x : Place × Nat}
    (h : ∀ d, x.1.above? = some d → d < ch.size) : Strict.adopt ch x = some (adopt ch x) := by
  unfold Strict.adopt adopt
  cases ha : x.1.above? with
  | none => rfl
  | some d =>
    have hd := h d ha
    have hmodify : ch.setIfInBounds d ((ch.getD d #[]).push x.2) = ch.modify d (·.push x.2) := by
      apply Array.ext_getElem?
      intro i
      rw [Array.getElem?_setIfInBounds, Array.getElem?_modify]
      by_cases hi : d = i
      · subst hi
        simp [hd]
      · rw [if_neg hi, if_neg hi]
    simp only [Option.bind_eq_bind, Option.bind_some, Strict.getElem?_of_lt hd #[],
      Strict.write_of_lt hd, hmodify]

private def placeIn (roots : List Block) (n : Numbering) (s : Sweep) (x : Block × Nat) : Place :=
  placeOf (heads n) s ((Std.ExtTreeSet.ofList roots).contains x.1) x.2

private theorem lt_of_mem_zipIdx {x : Block × Nat} (hx : x ∈ n.order.toList.zipIdx) :
    x.2 < n.size := by
  have := List.snd_lt_of_mem_zipIdx hx
  rwa [Array.length_toList, Nat.add_zero] at this

private theorem above_lt (hn : n.Ranked) (h : s.Bounded n) {p : Place}
    (hp : p ∈ n.order.toList.zipIdx.map (placeIn roots n s)) : ∀ d, p.above? = some d → d < n.size := by
  intro d hd
  rcases List.mem_map.mp hp with ⟨x, hx, rfl⟩
  exact above_placeOf_lt h (strict_heads hn).2 (lt_of_mem_zipIdx hx) hd

private theorem strict_parent (hn : n.Ranked) (roots : List Block) (s : Sweep) :
    (List.range n.size).mapM (Strict.parentOf n) = some (ofSweep roots n s).parent.toList := by
  apply Strict.mapM_eq_some
  intro i hi
  unfold Strict.parentOf
  rw [read_parent hn (List.mem_range.mp hi)]
  cases n.parentOf (i + 1) <;> rfl

private theorem strict_semi (hn : n.Ranked) (h : s.Bounded n) (roots : List Block) :
    n.order.toList.zipIdx.mapM (fun x => Strict.semiPosition (heads n) s
      ((Std.ExtTreeSet.ofList roots).contains x.1) x.2) = some (ofSweep roots n s).semi.toList :=
  Strict.mapM_eq_some fun _ hx =>
    strict_semiPosition hn h (strict_heads hn).2 (lt_of_mem_zipIdx hx)

private theorem strict_places (hn : n.Ranked) (h : s.Bounded n) (roots : List Block) :
    n.order.toList.zipIdx.mapM (fun x => Strict.placeOf (heads n) s
      ((Std.ExtTreeSet.ofList roots).contains x.1) x.2) =
      some (n.order.toList.zipIdx.map (placeIn roots n s)) :=
  Strict.mapM_eq_some fun _ hx => strict_placeOf h (strict_heads hn).2 (lt_of_mem_zipIdx hx)

private theorem strict_idom (hn : n.Ranked) (h : s.Bounded n) (roots : List Block) :
    (n.order.toList.zip (n.order.toList.zipIdx.map (placeIn roots n s))).foldlM
      (Strict.hang n.order) ∅ = some (ofSweep roots n s).idom := by
  refine (Strict.foldlM_eq_some (P := fun _ => True) ?_ trivial).1
  intro m x hx _
  exact ⟨strict_hang (above_lt hn h (List.of_mem_zip hx).2), trivial⟩

private theorem strict_children (hn : n.Ranked) (h : s.Bounded n) (roots : List Block) :
    (n.order.toList.zipIdx.map (placeIn roots n s)).zipIdx.foldlM Strict.adopt
      (Array.replicate n.size #[]) = some (ofSweep roots n s).children := by
  refine (Strict.foldlM_eq_some (P := fun ch => ch.size = n.size) ?_ Array.size_replicate).1
  intro ch x hx hch
  refine ⟨strict_adopt ?_, (size_adopt ch x).trans hch⟩
  rw [hch]
  exact above_lt hn h (List.fst_mem_of_mem_zipIdx hx)

/-- The tables are made without looking up anything that is absent. -/
theorem strict_ofSweep (hn : n.Ranked) (h : s.Bounded n) (roots : List Block) :
    Strict.ofSweep roots n s = some (ofSweep roots n s) := by
  unfold Strict.ofSweep
  simp only [Option.bind_eq_bind, Option.bind_some, (strict_heads hn).1, strict_parent hn roots s,
    strict_semi hn h roots, strict_places hn h roots, strict_idom hn h roots,
    strict_children hn h roots]
  rfl

/-- A construction whose blocks are numbered is finished. -/
theorem strict_ofNumbering {fuel : Nat} (hn : n.Ranked) (hfuel : n.size < fuel)
    (roots : List Block) : Strict.ofNumbering fuel roots n = some (ofNumbering roots n) := by
  obtain ⟨hrun, h⟩ := Sweep.strict_run hn hfuel
  unfold Strict.ofNumbering
  simp only [Option.bind_eq_bind, Option.bind_some, hrun, h.strict_events,
    strict_ofSweep hn h roots]
  rfl

/-! ### Their shape -/

/-- Position `w` is listed below position `d`. -/
def Child (t : Tree) (w d : Nat) : Prop := w ∈ (t.children.getD d #[]).toList

/-- Tables fit together, positions that are named exist, and every position is listed below one
position at most. -/
structure Shaped (t : Tree) : Prop where
  blockAt?_of_position? : ∀ b w, t.position? b = some w → t.blockAt? w = some b
  contains_root : ∀ r ∈ t.roots, t.contains r = true
  semi : Closed t.size t.semi
  shared_size : t.shared.size = t.size
  targets_size : t.targets.size = t.size
  children_size : t.children.size = t.size
  child_lt : ∀ w d, t.Child w d → w < t.size
  child_unique : ∀ w d e, t.Child w d → t.Child w e → d = e
  nodup_children : ∀ d < t.size, (t.children.getD d #[]).toList.Nodup
  idom_child : ∀ w d b, t.Child w d → t.blockAt? w = some b → (t.idom? b).isSome = true

private theorem child_ofSweep_iff :
    (ofSweep roots n s).Child w d ↔
      d < n.size ∧ ∃ b, n.order[w]? = some b ∧ (placeAt roots n s b w).above? = some d := by
  by_cases hd : d < n.size
  · rw [Child, mem_children_ofSweep hd]
    simp [hd]
  · have hnone : (ofSweep roots n s).children[d]? = none := by
      apply Array.getElem?_eq_none
      rw [size_children_ofSweep]
      exact Nat.le_of_not_lt hd
    simp [Child, Array.getD_eq_getD_getElem?, hnone, hd]

/-- The tables of a finished sweep have this shape. -/
theorem shaped_ofSweep (hn : n.Ranked) (h : s.Bounded n) (roots : List Block) :
    (ofSweep roots n s).Shaped where
  blockAt?_of_position? := hn.order_position
  contains_root r hr := (mem_roots_ofSweep.mp hr).2
  semi := by
    refine ⟨by simp [ofSweep, size], fun i hi => ?_⟩
    have hb : n.order[i]? = some n.order[i] := Array.getElem?_eq_getElem hi
    rw [Array.getD_eq_getD_getElem?, semi_ofSweep hb, Option.getD_some]
    exact semiPosition_lt hn h (strict_heads hn).2 hi
  shared_size := by simp [ofSweep, size]
  targets_size := hn.targets_size
  children_size := size_children_ofSweep
  child_lt w d hc := by
    obtain ⟨_, b, hb, _⟩ := child_ofSweep_iff.mp hc
    exact (Array.getElem?_eq_some_iff.mp hb).1
  child_unique w d e hd he := by
    obtain ⟨_, b, hb, hbd⟩ := child_ofSweep_iff.mp hd
    obtain ⟨_, c, hc, hce⟩ := child_ofSweep_iff.mp he
    rw [hb] at hc
    cases hc
    rw [hbd] at hce
    exact Option.some.inj hce
  nodup_children d hd := (pairwise_children_ofSweep hd).imp Nat.ne_of_lt
  idom_child w d b hc hb := by
    obtain ⟨hd, c, hc, hcd⟩ := child_ofSweep_iff.mp hc
    have hbc : some b = some c := hb.symm.trans hc
    cases hbc
    exact idom?_isSome_ofSweep hc hcd hd

end Tree
end Dominance
