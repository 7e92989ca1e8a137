import Dominance.Proofs.Semidominator

/-!
# Dominators in numbers

A number dominates another if it lies on every walk from the virtual entry. Exactly those ancestors
do that no semidominator jumps over: `a` dominates `w` if all numbers on the way from `a` down to `w`
have a semidominator at `a` or below. What the immediate dominator is, and why numbers with least
semidominators share it, is then a matter of comparing numbers.
-/

namespace Dominance
namespace Numbering

/-- The number is reached from the virtual entry without meeting `a`. -/
inductive Avoids (n : Numbering) (a : Nat) : Nat → Prop where
  | entry (h : a ≠ 0) : Avoids n a 0
  | step {v w : Nat} (h : Avoids n a v) (hvw : n.Leads v w) (hw : w ≠ a) : Avoids n a w

/-- The number `a` lies on every walk from the virtual entry to `w`. -/
def Dominates (n : Numbering) (a w : Nat) : Prop := ¬n.Avoids a w

/-- The dominators of `w` other than `w` are the dominators of `d`. -/
def IsIdom (n : Numbering) (d w : Nat) : Prop := ∀ a, n.Dominates a w ∧ a ≠ w ↔ n.Dominates a d

variable {n : Numbering} {a d s u v w x y z : Nat}

private theorem Avoids.ne (h : n.Avoids a w) : w ≠ a := by
  cases h with
  | entry h => exact h.symm
  | step _ _ hw => exact hw

private theorem Avoids.via (h : n.Avoids a u) (h' : n.Via (a < ·) u w) (hw : w ≠ a) : n.Avoids a w := by
  induction h' with
  | edge huw => exact .step h huw hw
  | @step v w _ hv hvw ih => exact .step (ih (by omega)) hvw hw

/-- Every number dominates itself. -/
theorem dominates_refl (n : Numbering) (w : Nat) : n.Dominates w w := fun h => h.ne rfl

/-- Every immediate dominator is a proper dominator. -/
theorem IsIdom.dominates (h : n.IsIdom d w) : n.Dominates d w ∧ d ≠ w :=
  (h d).mpr (n.dominates_refl d)

namespace DepthFirst

variable (hn : n.DepthFirst)
include hn

/-- The forest leads to a number past all that are not its ancestors. -/
theorem avoids_of_not_ancestor (hw : w ≤ n.size) (h : ¬n.Ancestor a w) : n.Avoids a w := by
  induction w using Nat.strongRecOn with
  | ind w ih =>
    have hne : w ≠ a := fun he => h (he ▸ .refl)
    by_cases h0 : w = 0
    · subst h0
      exact .entry hne.symm
    · have pos : 0 < w := Nat.pos_of_ne_zero h0
      have hp := hn.parent_lt w pos hw
      have hup : ¬n.Ancestor a (n.parentOf w) := fun hx => h (.up pos hw hx)
      exact .step (ih _ hp (by omega) hup) (hn.parent_leads w pos hw) hne

/-- Dominators are ancestors. -/
theorem ancestor_of_dominates (hw : w ≤ n.size) (h : n.Dominates a w) : n.Ancestor a w :=
  Classical.byContradiction fun hx => h (hn.avoids_of_not_ancestor hw hx)

private theorem avoids_descend (h : n.Avoids a y) (hay : a < y) (h' : n.Ancestor y w) :
    n.Avoids a w := by
  induction h' with
  | refl => exact h
  | @up w pos le h' ih =>
    have hy := hn.le_of_ancestor h'
    have hp := hn.parent_lt w pos le
    exact .step ih (hn.parent_leads w pos le) (by omega)

/-- A semidominator before `a` of a number below `a` leads past `a`. -/
theorem avoids_of_semi_lt (hsa : n.semi y < a) (hay : a < y) (hyw : n.Ancestor y w)
    (hw : w ≤ n.size) : n.Avoids a w := by
  have hy := hn.ancestor_le_size hyw hw
  have hna : ¬n.Ancestor a (n.semi y) := fun hx => absurd (hn.le_of_ancestor hx) (by omega)
  have h : n.Avoids a (n.semi y) := hn.avoids_of_not_ancestor (by omega) hna
  have hd : n.Via (a < ·) (n.semi y) y :=
    (hn.detour_semi (by omega) hy).imp fun x hx => Nat.lt_trans hay hx
  exact hn.avoids_descend (h.via hd (by omega)) hay hyw

/-- A walk to an ancestor `y` of `w` that meets no ancestor of `w` before is a detour to `y`. -/
theorem via_above_of_first (hyw : n.Ancestor y w)
    (h : n.Via (fun t => a < t ∧ ¬n.Ancestor t w) x z) (hyz : y ≤ z) : n.Via (y < ·) x z := by
  induction h with
  | edge h => exact .edge h
  | @step v z _ hv hvz ih =>
    -- An edge from before `y` to `y` or past it would make its source an ancestor of `y`.
    have hlt : y < v := by
      rcases Nat.lt_trichotomy v y with hvy | rfl | hvy
      · exact absurd ((hn.ancestor_of_leads hvz hvy hyz).trans hyw) hv.2
      · exact absurd hyw hv.2
      · exact hvy
    exact .step (ih (Nat.le_of_lt hlt)) hlt hvz

/-- What is reached past `a` is numbered before `a`, or it is not on the way from `a` to `w` and the
walk to it has left the numbers before `a` for good. -/
theorem avoids_cases (hle : ∀ y, n.Ancestor y w → a < y → a ≤ n.semi y) (h : n.Avoids a z) :
    z < a ∨ (a < z ∧ ¬n.Ancestor z w ∧ ∃ x < a, n.Via (fun t => a < t ∧ ¬n.Ancestor t w) x z) := by
  induction h with
  | entry h => exact Or.inl (Nat.pos_of_ne_zero h)
  | @step v z _ hvz hne ih =>
    rcases Nat.lt_or_gt_of_ne hne with hlt | hgt
    · exact Or.inl hlt
    · have hvia : ∃ x < a, n.Via (fun t => a < t ∧ ¬n.Ancestor t w) x z := by
        rcases ih with hva | ⟨hav, hvw, x, hx, hxv⟩
        · exact ⟨v, hva, .edge hvz⟩
        · exact ⟨x, hx, .step hxv ⟨hav, hvw⟩ hvz⟩
      refine Or.inr ⟨hgt, ?_, hvia⟩
      intro hzw
      obtain ⟨x, hx, hxz⟩ := hvia
      have hs : n.semi z ≤ x := semi_le (hn.via_above_of_first hzw hxz (Nat.le_refl z))
      have := hle z hzw hgt
      omega

/-- The dominators of `w` are those ancestors that no semidominator on the way to `w` jumps over. -/
theorem dominates_iff (hw : w ≤ n.size) :
    n.Dominates a w ↔ n.Ancestor a w ∧ ∀ y, n.Ancestor y w → a < y → a ≤ n.semi y := by
  constructor
  · intro h
    refine ⟨hn.ancestor_of_dominates hw h, ?_⟩
    intro y hyw hay
    apply Nat.le_of_not_lt
    intro hlt
    exact h (hn.avoids_of_semi_lt hlt hay hyw hw)
  · rintro ⟨haw, hle⟩ h
    have := hn.le_of_ancestor haw
    rcases hn.avoids_cases hle h with hlt | ⟨_, hww, _⟩
    · omega
    · exact hww .refl

/-- Where no number on the way has an earlier semidominator, the semidominator is the immediate
dominator. -/
theorem isIdom_semi (pos : 0 < w) (hw : w ≤ n.size)
    (hle : ∀ y, n.Ancestor y w → n.semi w < y → n.semi w ≤ n.semi y) : n.IsIdom (n.semi w) w := by
  have hsw := hn.semi_lt pos hw
  have hanc := hn.semi_ancestor pos hw
  intro a
  rw [hn.dominates_iff hw, hn.dominates_iff (Nat.le_trans (Nat.le_of_lt hsw) hw)]
  constructor
  · rintro ⟨⟨haw, h⟩, hne⟩
    have hlt := Nat.lt_of_le_of_ne (hn.le_of_ancestor haw) hne
    have has := h w .refl hlt
    exact ⟨hn.ancestor_of_le haw hanc has, fun y hy => h y (hy.trans hanc)⟩
  · rintro ⟨has, h⟩
    have hle' := hn.le_of_ancestor has
    refine ⟨⟨has.trans hanc, ?_⟩, by omega⟩
    intro y hy hay
    rcases Nat.lt_or_ge (n.semi w) y with hlt | hge
    · exact Nat.le_trans hle' (hle y hy hlt)
    · exact h y (hn.ancestor_of_le hy hanc hge) hay

/-- Of the numbers below the semidominator of `w` on the way to `w`, one with the least semidominator
has the immediate dominator of `w`. -/
theorem isIdom_of_least (pos : 0 < w) (hw : w ≤ n.size) (huw : n.Ancestor u w) (hu : n.semi w < u)
    (hle : ∀ y, n.Ancestor y w → n.semi w < y → n.semi u ≤ n.semi y) (hd : n.IsIdom d u) :
    n.IsIdom d w := by
  have hsw := hn.semi_lt pos hw
  have huw' := hn.le_of_ancestor huw
  have hus := hle w .refl hsw
  intro a
  rw [← hd a, hn.dominates_iff hw, hn.dominates_iff (Nat.le_trans huw' hw)]
  constructor
  · rintro ⟨⟨haw, h⟩, hne⟩
    have hlt := Nat.lt_of_le_of_ne (hn.le_of_ancestor haw) hne
    have has := h w .refl hlt
    exact ⟨⟨hn.ancestor_of_le haw huw (by omega), fun y hy => h y (hy.trans huw)⟩, by omega⟩
  · rintro ⟨⟨hau, h⟩, hne⟩
    have hlt := Nat.lt_of_le_of_ne (hn.le_of_ancestor hau) hne
    have has := h u .refl hlt
    refine ⟨⟨hau.trans huw, ?_⟩, by omega⟩
    intro y hy hay
    rcases Nat.lt_or_ge (n.semi w) y with hlt | hge
    · exact Nat.le_trans has (hle y hy hlt)
    · exact h y (hn.ancestor_of_le hy huw (by omega)) hay

/-- An immediate dominator is numbered before its number. -/
theorem idom_lt (hw : w ≤ n.size) (hd : n.IsIdom d w) : d < w :=
  Nat.lt_of_le_of_ne (hn.le_of_ancestor (hn.ancestor_of_dominates hw hd.dominates.1)) hd.dominates.2

/-- The dominators of a number other than itself dominate its semidominator. -/
theorem dominates_semi (pos : 0 < w) (hw : w ≤ n.size) (h : n.Dominates a w) (hne : a ≠ w) :
    n.Dominates a (n.semi w) := by
  have hsw := hn.semi_lt pos hw
  have hanc := hn.semi_ancestor pos hw
  obtain ⟨haw, hle⟩ := (hn.dominates_iff hw).mp h
  have hlt : a < w := Nat.lt_of_le_of_ne (hn.le_of_ancestor haw) hne
  rw [hn.dominates_iff (by omega)]
  refine ⟨hn.ancestor_of_le haw hanc (hle w .refl hlt), ?_⟩
  intro y hy hay
  exact hle y (hy.trans hanc) hay

end DepthFirst
end Numbering
end Dominance
