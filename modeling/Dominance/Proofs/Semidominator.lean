import Mathlib.Order.Lattice.Nat
import Dominance.Proofs.Ancestor

/-!
# Semidominators by walks

A detour to a number goes through later numbers only. The semidominator of a number is the least
number from which a detour leads to it. It is a proper ancestor, and it can be found from the
predecessors of the number and the semidominators of later numbers.
-/

namespace Dominance
namespace Numbering

/-- A walk of at least one edge; the numbers between its two ends satisfy `P`. -/
inductive Via (n : Numbering) (P : Nat → Prop) (u : Nat) : Nat → Prop where
  | edge {w : Nat} (h : n.Leads u w) : Via n P u w
  | step {v w : Nat} (h : Via n P u v) (hv : P v) (hw : n.Leads v w) : Via n P u w

/-- A walk to `w` on which every number between the two ends is greater than `w`. -/
def Detour (n : Numbering) (v w : Nat) : Prop := n.Via (w < ·) v w

/-- The semidominator of `w`: the least number from which a detour leads to `w`. -/
noncomputable def semi (n : Numbering) (w : Nat) : Nat := sInf {v | n.Detour v w}

variable {n : Numbering} {P Q : Nat → Prop} {a m s u v w x z : Nat}

/-- A way through numbers of one kind is a way through numbers of a wider kind. -/
theorem Via.imp (h : n.Via P u w) (hPQ : ∀ v, P v → Q v) : n.Via Q u w := by
  induction h with
  | edge h => exact .edge h
  | step _ hv hw ih => exact .step ih (hPQ _ hv) hw

/-- A walk has a first edge. -/
theorem Via.first (h : n.Via P u w) : ∃ v, n.Leads u v ∧ (v = w ∨ P v) := by
  induction h with
  | edge h => exact ⟨_, h, Or.inl rfl⟩
  | step _ hv _ ih =>
    obtain ⟨x, hx, rfl | hp⟩ := ih
    · exact ⟨x, hx, Or.inr hv⟩
    · exact ⟨x, hx, Or.inr hp⟩

/-- No detour begins before the semidominator. -/
theorem semi_le (h : n.Detour v w) : n.semi w ≤ v := Nat.sInf_le h

namespace DepthFirst

variable (hn : n.DepthFirst)
include hn

/-- A walk above `m` goes on down the forest, above `m` still. -/
theorem via_descend (h : n.Via (m < ·) u a) (ha : m < a) (h' : n.Ancestor a v) :
    n.Via (m < ·) u v := by
  induction h' with
  | refl => exact h
  | @up w pos le h' ih =>
    have hp := hn.le_of_ancestor h'
    exact .step ih (by omega) (hn.parent_leads w pos le)

/-- Parents have detours to their children. -/
theorem detour_parentOf (pos : 0 < w) (le : w ≤ n.size) : n.Detour (n.parentOf w) w :=
  .edge (hn.parent_leads w pos le)

/-- A detour that begins before its end begins at an ancestor. -/
theorem ancestor_of_detour (h : n.Detour v w) (hlt : v < w) : n.Ancestor v w := by
  obtain ⟨x, hx, rfl | hwx⟩ := h.first
  · exact hn.ancestor_of_leads hx hlt (Nat.le_refl x)
  · exact hn.ancestor_of_leads hx hlt (Nat.le_of_lt hwx)

/-- A detour leads from the semidominator. -/
theorem detour_semi (pos : 0 < w) (le : w ≤ n.size) : n.Detour (n.semi w) w := by
  have hne : {v | n.Detour v w}.Nonempty := ⟨n.parentOf w, hn.detour_parentOf pos le⟩
  exact Nat.sInf_mem hne

/-- A semidominator is numbered before its number. -/
theorem semi_lt (pos : 0 < w) (le : w ≤ n.size) : n.semi w < w :=
  Nat.lt_of_le_of_lt (semi_le (hn.detour_parentOf pos le)) (hn.parent_lt w pos le)

/-- A semidominator is an ancestor of its number. -/
theorem semi_ancestor (pos : 0 < w) (le : w ≤ n.size) : n.Ancestor (n.semi w) w :=
  hn.ancestor_of_detour (hn.detour_semi pos le) (hn.semi_lt pos le)

/-- A walk above `w` to a later number makes a detour to one of the ancestors above `w`. -/
theorem exists_detour_of_via (h : n.Via (w < ·) x z) (hz : w < z) :
    ∃ u, w < u ∧ n.Ancestor u z ∧ n.Detour x u := by
  induction h with
  | @edge z h => exact ⟨z, hz, .refl, .edge h⟩
  | @step y z h hy hyz ih =>
    obtain ⟨u, hu, huy, hd⟩ := ih hy
    rcases Nat.lt_or_ge y z with hlt | hge
    · exact ⟨u, hu, huy.trans (hn.ancestor_of_leads hyz hlt (Nat.le_refl z)), hd⟩
    · rcases Nat.lt_or_ge z u with hzu | hzu
      -- The walk to `u` and down to `y` stays above `z`, so that it is a detour to `z` itself.
      · have hxu : n.Via (z < ·) x u := hd.imp fun v hv => Nat.lt_trans hzu hv
        have hxy := hn.via_descend hxu hzu huy
        have hy' := hn.le_of_ancestor huy
        exact ⟨z, hz, .refl, .step hxy (by omega) hyz⟩
      · exact ⟨u, hu, hn.ancestor_between huy hzu hge, hd⟩

/-- A number after `w` passes its semidominator on to `w`, if a number below it leads to `w`. -/
theorem detour_of_linked (hwu : w < u) (huv : n.Ancestor u v) (hvw : n.Leads v w) :
    n.Detour (n.semi u) w := by
  have hu := hn.ancestor_le_size huv (hn.source_le v w hvw)
  have hsu : n.Via (w < ·) (n.semi u) u :=
    (hn.detour_semi (by omega) hu).imp fun x hx => Nat.lt_trans hwu hx
  have hv := hn.le_of_ancestor huv
  exact .step (hn.via_descend hsu hwu huv) (by omega) hvw

/-- The semidominator of `w` is the least of its smaller predecessors and of the semidominators of
those later numbers that have a predecessor of `w` below them. -/
theorem semi_eq_of_least (pos : 0 < w) (le : w ≤ n.size)
    (hfound : n.Leads s w ∨ ∃ v u, n.Leads v w ∧ n.Ancestor u v ∧ w < u ∧ s = n.semi u)
    (hdirect : ∀ v, n.Leads v w → v < w → s ≤ v)
    (hlinked : ∀ v u, n.Leads v w → n.Ancestor u v → w < u → s ≤ n.semi u) : n.semi w = s := by
  apply Nat.le_antisymm
  · apply semi_le
    rcases hfound with h | ⟨v, u, hv, hu, hwu, rfl⟩
    · exact .edge h
    · exact hn.detour_of_linked hwu hu hv
  · cases hn.detour_semi pos le with
    | edge h => exact hdirect _ h (hn.semi_lt pos le)
    | @step z _ h hz hzw =>
      obtain ⟨u, hwu, huz, hd⟩ := hn.exists_detour_of_via h hz
      exact Nat.le_trans (hlinked z u hzw huz hwu) (semi_le hd)

end DepthFirst
end Numbering
end Dominance
