import Dominance.Numbering

/-!
# Ancestors in a depth-first forest

A numbering is depth-first when parents lead to their children and are the last numbers before them
that do, even among those that an edge jumps over. Everything else about depth-first forests follows:
an edge leads forward only to descendants, and the descendants of a number are consecutive.
-/

namespace Dominance
namespace Numbering

/-- The number `u` leads to the number `w`; the virtual entry leads to roots. -/
def Leads (n : Numbering) (u w : Nat) : Prop := u ∈ n.predsOf w

/-- The laws of depth-first numbers. The last one says that while an edge is open, that is between
its source and its target, nothing is found by a number before the source. -/
structure DepthFirst (n : Numbering) : Prop where
  source_le : ∀ u w, n.Leads u w → u ≤ n.size
  target_pos : ∀ u w, n.Leads u w → 0 < w
  target_le : ∀ u w, n.Leads u w → w ≤ n.size
  parent_leads : ∀ w, 0 < w → w ≤ n.size → n.Leads (n.parentOf w) w
  parent_lt : ∀ w, 0 < w → w ≤ n.size → n.parentOf w < w
  le_parent : ∀ u v w, n.Leads u w → u < v → v ≤ w → u ≤ n.parentOf v

/-- The number `a` is the given number or lies above it in the depth-first forest. -/
inductive Ancestor (n : Numbering) (a : Nat) : Nat → Prop where
  | refl : Ancestor n a a
  | up {w : Nat} (pos : 0 < w) (le : w ≤ n.size) (h : Ancestor n a (n.parentOf w)) : Ancestor n a w

/-- The number `y` is passed on the way from `v` up to `r`, which is not part of the way. -/
def OnWay (n : Numbering) (r v y : Nat) : Prop := n.Ancestor y v ∧ n.Ancestor r y ∧ y ≠ r

variable {n : Numbering} {a b k r u v w y : Nat}

/-- Ancestors of ancestors are ancestors. -/
theorem Ancestor.trans (h : n.Ancestor a b) (h' : n.Ancestor b w) : n.Ancestor a w := by
  induction h' with
  | refl => exact h
  | up pos le _ ih => exact .up pos le ih

/-- A proper ancestor is an ancestor of the parent. -/
theorem Ancestor.parent (h : n.Ancestor a w) (hne : a ≠ w) : n.Ancestor a (n.parentOf w) := by
  cases h with
  | refl => exact absurd rfl hne
  | up _ _ h => exact h

/-- A parent is an ancestor. -/
theorem ancestor_parentOf (pos : 0 < w) (le : w ≤ n.size) : n.Ancestor (n.parentOf w) w :=
  .up pos le .refl

/-- A proper descendant lies below one of the children. -/
theorem Ancestor.child (h : n.Ancestor a w) (hne : a ≠ w) :
    ∃ c, 0 < c ∧ c ≤ n.size ∧ n.parentOf c = a ∧ n.Ancestor c w := by
  induction h with
  | refl => exact absurd rfl hne
  | @up w pos le h ih =>
    by_cases hp : a = n.parentOf w
    · exact ⟨w, pos, le, hp.symm, .refl⟩
    · obtain ⟨c, hc, hcs, hca, hcw⟩ := ih hp
      exact ⟨c, hc, hcs, hca, .up pos le hcw⟩

namespace DepthFirst

variable (hn : n.DepthFirst)
include hn

/-- Ancestors are numbered first. -/
theorem le_of_ancestor (h : n.Ancestor a w) : a ≤ w := by
  induction h with
  | refl => exact Nat.le_refl a
  | up pos le _ ih => exact Nat.le_trans ih (Nat.le_of_lt (hn.parent_lt _ pos le))

/-- Ancestors of a number of the forest belong to the forest. -/
theorem ancestor_le_size (h : n.Ancestor a w) (hw : w ≤ n.size) : a ≤ n.size :=
  Nat.le_trans (hn.le_of_ancestor h) hw

/-- The ancestors of a number form a chain. -/
theorem ancestor_of_le (h : n.Ancestor a w) (h' : n.Ancestor b w) (hab : a ≤ b) :
    n.Ancestor a b := by
  induction h' with
  | refl => exact h
  | @up w pos le h' ih =>
    have hb := hn.le_of_ancestor h'
    have hp := hn.parent_lt w pos le
    exact ih (h.parent (by omega))

/-- An edge leads over descendants of its source only: every number after the source, up to and with
the target, is below the source. -/
theorem ancestor_of_leads (h : n.Leads u w) (huv : u < v) (hvw : v ≤ w) : n.Ancestor u v := by
  induction v using Nat.strongRecOn with
  | ind v ih =>
    have hv : v ≤ n.size := Nat.le_trans hvw (hn.target_le u w h)
    have hp := hn.parent_lt v (by omega) hv
    have hu := hn.le_parent u v w h huv hvw
    refine .up (by omega) hv ?_
    by_cases he : u = n.parentOf v
    · rw [← he]
      exact .refl
    · exact ih _ hp (by omega) (by omega)

/-- The descendants of a number are consecutive. -/
theorem ancestor_between (h : n.Ancestor a w) (hav : a ≤ v) (hvw : v ≤ w) : n.Ancestor a v := by
  induction h with
  | refl =>
    rw [Nat.le_antisymm hav hvw]
    exact .refl
  | @up w pos le h ih =>
    by_cases hv : v ≤ n.parentOf w
    · exact ih hv
    · have hp : n.Ancestor (n.parentOf w) v :=
        hn.ancestor_of_leads (hn.parent_leads w pos le) (by omega) hvw
      exact h.trans hp

/-- Only a number itself lies above it and after its parent. -/
theorem eq_of_parent_lt (h : n.Ancestor a w) (hlt : n.parentOf w < a) : a = w := by
  apply Classical.byContradiction
  intro hne
  have := hn.le_of_ancestor (h.parent hne)
  omega

/-- Whatever lies above `v` and after the parent of `w` lies at `w` or after it, if `w` itself comes
no later than `v`. -/
theorem le_of_parent_lt (h : n.Ancestor a v) (hlt : n.parentOf w < a) (hw : w ≤ v) : w ≤ a := by
  apply Nat.le_of_not_lt
  intro haw
  have hup : n.Ancestor a (n.parentOf w) := (hn.ancestor_between h (by omega) hw).parent (by omega)
  have := hn.le_of_ancestor hup
  omega

/-- On the way up to an ancestor are the ancestors that come after it. -/
theorem onWay_iff (hr : n.Ancestor r v) : n.OnWay r v y ↔ n.Ancestor y v ∧ r < y := by
  constructor
  · rintro ⟨hy, hry, hne⟩
    exact ⟨hy, Nat.lt_of_le_of_ne (hn.le_of_ancestor hry) (Ne.symm hne)⟩
  · rintro ⟨hy, hlt⟩
    exact ⟨hy, hn.ancestor_of_le hr hy (Nat.le_of_lt hlt), Nat.ne_of_gt hlt⟩

/-- The way up comes to a number before `k`, the first such number: all that it passes comes later. -/
theorem exists_first_before (pos : 0 < k) (hv : v ≤ n.size) :
    ∃ r, n.Ancestor r v ∧ r < k ∧ ∀ y, n.OnWay r v y → k ≤ y := by
  induction v using Nat.strongRecOn with
  | ind v ih =>
    by_cases hk : v < k
    · refine ⟨v, .refl, hk, ?_⟩
      rintro y ⟨hy, hvy, hne⟩
      exact absurd (Nat.le_antisymm (hn.le_of_ancestor hy) (hn.le_of_ancestor hvy)) hne
    · have hp := hn.parent_lt v (by omega) hv
      obtain ⟨r, hr, hrk, hway⟩ := ih (n.parentOf v) hp (by omega)
      refine ⟨r, .up (by omega) hv hr, hrk, ?_⟩
      rintro y ⟨hy, hry, hne⟩
      by_cases hyv : y = v
      · omega
      · exact hway y ⟨hy.parent hyv, hry, hne⟩

end DepthFirst
end Numbering
end Dominance
