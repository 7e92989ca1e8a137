import Dominance.Forest.Move
import Dominance.Proofs.Forest.Meaning

/-!
# Moves keep forests alike

A semidominator that is set, and a link that is made, have the same effect on what two alike forests
mean. Alike forests therefore stay alike under all moves, and the moves find the same in both: nothing
that follows can tell whether a forest has been compressed.
-/

namespace Dominance
namespace Forest

variable {f g : Forest} {k m p r s v w x : Nat}

/-! ## Setting semidominators -/

/-- The semidominator of a number that is not linked is no part of any meaning. -/
theorem Means.setSemi (ht : f.Tidy) (hw : f.ancestorOf w = none) (s : Nat) (hm : f.Means v r m) :
    (f.setSemi w s).Means v r m := by
  obtain ⟨path, hc⟩ := hm
  refine ⟨path, hc.congr hc.root (fun _ _ => rfl) fun x hx => ?_⟩
  obtain ⟨_, _, hrest, _⟩ := hc.of_mem hx
  obtain ⟨a, ha⟩ := hrest.exists_ancestor
  have hlabel := ht.label_linked x (by simp [ha])
  have hne : w ≠ f.labelOf x := by
    intro he
    exact hlabel (he ▸ hw)
  exact (semiOf_setSemi f w s _).trans (if_neg fun he => hne he.1)

/-- Setting the semidominator of a root keeps a forest tidy. -/
theorem Tidy.setSemi (ht : f.Tidy) (hw : f.ancestorOf w = none) (s : Nat) : (f.setSemi w s).Tidy where
  label_size := ht.label_size
  label_root := ht.label_root
  label_linked := ht.label_linked
  ends v hv := by
    obtain ⟨r, m, hm⟩ := ht.ends v hv
    exact ⟨r, m, hm.setSemi ht hw s⟩

/-- Setting the semidominator of a root keeps two forests alike. -/
theorem Alike.setSemi (hf : f.Tidy) (hg : g.Tidy) (h : f.Alike g) (hw : f.ancestorOf w = none)
    (s : Nat) : (f.setSemi w s).Alike (g.setSemi w s) where
  semi := by rw [Forest.setSemi, Forest.setSemi, h.semi]
  ancestor_size := h.ancestor_size
  means v := by
    rcases h.means v with hnone | ⟨r, m, hfm, hgm⟩
    · exact .inl hnone
    · exact .inr ⟨r, m, hfm.setSemi hf hw s, hgm.setSemi hg ((h.root_iff w).mp hw) s⟩

/-! ## Linking -/

/-- The way up passes a root exactly if it begins or ends there. -/
theorem passes_iff (hr : f.ancestorOf r = none) : f.Passes r v ↔ v = r ∨ ∃ m, f.Means v r m := by
  constructor
  · intro hp
    induction hp with
    | refl => exact .inl rfl
    | up hv _ ih =>
      rcases ih with rfl | ⟨m, path, hc⟩
      · exact .inr ⟨_, _, .top hv hr⟩
      · exact .inr ⟨_, _, .up hv hc⟩
  · rintro (rfl | ⟨m, path, hc⟩)
    · exact .refl
    · induction hc with
      | top hv _ => exact .up hv .refl
      | up hv _ ih => exact .up hv (ih hr)

private theorem Alike.passes_iff (h : f.Alike g) (hr : f.ancestorOf r = none) :
    f.Passes r v ↔ g.Passes r v := by
  rw [Forest.passes_iff hr, Forest.passes_iff ((h.root_iff r).mp hr)]
  constructor
  · rintro (rfl | ⟨m, hm⟩)
    · exact .inl rfl
    · exact .inr ⟨m, h.means_of hm⟩
  · rintro (rfl | ⟨m, hm⟩)
    · exact .inl rfl
    · exact .inr ⟨m, h.symm.means_of hm⟩

private theorem Alike.allows (h : f.Alike g) {move : Move} (hm : f.Allows move) : g.Allows move := by
  cases move with
  | ask v => trivial
  | setSemi w s => exact (h.root_iff w).mp hm
  | link p w =>
    obtain ⟨hw, hr, hp⟩ := hm
    exact ⟨h.ancestor_size ▸ hw, (h.root_iff w).mp hr, fun hx => hp ((h.passes_iff hr).mpr hx)⟩

section

variable (hw : w < f.ancestor.size) (hr : f.ancestorOf w = none)
include hw hr

/-- Ways up to another root stay as they are. -/
theorem Means.link (hm : f.Means v r m) (hne : r ≠ w) (p : Nat) : (f.link p w).Means v r m := by
  obtain ⟨path, hc⟩ := hm
  have hanc := ancestorOf_link_of_lt hw p
  refine ⟨path, hc.congr (by rw [hanc, if_neg (Ne.symm hne)]; exact hc.root) ?_ fun _ _ => rfl⟩
  intro x hx
  obtain ⟨_, _, hrest, _⟩ := hc.of_mem hx
  obtain ⟨a, ha⟩ := hrest.exists_ancestor
  rw [hanc, if_neg (by rintro rfl; rw [hr] at ha; cases ha)]

/-- Ways up to the linked number go on from there. -/
theorem Means.link_append (hm : f.Means v w m) (hk : (f.link p w).Means w r k) :
    (f.link p w).Means v r (min m k) := by
  obtain ⟨path, hc⟩ := hm
  obtain ⟨other, hd⟩ := hk
  refine ⟨path ++ other, hc.append hd ?_ fun _ _ => rfl⟩
  intro x hx
  obtain ⟨_, _, hrest, _⟩ := hc.of_mem hx
  obtain ⟨a, ha⟩ := hrest.exists_ancestor
  rw [ancestorOf_link_of_lt hw, if_neg (by rintro rfl; rw [hr] at ha; cases ha)]

end

/-- The linked number itself means what the number above it means, with its own semidominator. -/
theorem Alike.means_link (hf : f.Tidy) (hg : g.Tidy) (h : f.Alike g) (hm : f.Allows (.link p w)) :
    ∃ r k, (f.link p w).Means w r k ∧ (g.link p w).Means w r k := by
  obtain ⟨hgw, hgr, hgp⟩ := h.allows hm
  obtain ⟨hw, hr, hp⟩ := hm
  have hfanc := ancestorOf_link_of_lt hw p
  have hganc := ancestorOf_link_of_lt hgw p
  have hbest : (f.link p w).semiOf ((f.link p w).labelOf w) =
      (g.link p w).semiOf ((g.link p w).labelOf w) := by
    change f.semiOf (f.labelOf w) = g.semiOf (g.labelOf w)
    rw [hf.label_root w hw hr, hg.label_root w hgw hgr, h.semiOf]
  have hne : p ≠ w := by
    rintro rfl
    exact hp .refl
  rcases h.means p with ⟨hfp, hgp'⟩ | ⟨r, m, hfm, hgm⟩
  · refine ⟨p, _, ⟨[w], .top (by rw [hfanc, if_pos rfl]) ?_⟩, ?_⟩
    · rw [hfanc, if_neg (Ne.symm hne), hfp]
    · rw [hbest]
      exact ⟨[w], .top (by rw [hganc, if_pos rfl]) (by rw [hganc, if_neg (Ne.symm hne), hgp'])⟩
  · have hrw : r ≠ w := by
      rintro rfl
      exact hp ((Forest.passes_iff hr).mpr (.inr ⟨m, hfm⟩))
    obtain ⟨path, hc⟩ := hfm.link hw hr hrw p
    obtain ⟨other, hd⟩ := hgm.link hgw hgr hrw p
    refine ⟨r, _, ⟨w :: path, .up (by rw [hfanc, if_pos rfl]) hc⟩, ?_⟩
    rw [hbest]
    exact ⟨w :: other, .up (by rw [hganc, if_pos rfl]) hd⟩

/-- The same link keeps two forests alike. -/
theorem Alike.link (hf : f.Tidy) (hg : g.Tidy) (h : f.Alike g) (hm : f.Allows (.link p w)) :
    (f.link p w).Alike (g.link p w) := by
  obtain ⟨s, k, hfw, hgw⟩ := h.means_link hf hg hm
  obtain ⟨hgsize, hgr, _⟩ := h.allows hm
  obtain ⟨hsize, hr, _⟩ := hm
  refine ⟨h.semi, ?_, ?_⟩
  · rw [Forest.link, Forest.link, Array.size_setIfInBounds, Array.size_setIfInBounds, h.ancestor_size]
  · intro v
    rcases h.means v with ⟨hfv, hgv⟩ | ⟨r, m, hfm, hgm⟩
    · by_cases hv : w = v
      · subst hv
        exact .inr ⟨s, k, hfw, hgw⟩
      · rw [ancestorOf_link_of_lt hsize, ancestorOf_link_of_lt hgsize, if_neg hv, if_neg hv]
        exact .inl ⟨hfv, hgv⟩
    · by_cases hrw : r = w
      · subst hrw
        exact .inr ⟨s, _, hfm.link_append hsize hr hfw, hgm.link_append hgsize hgr hgw⟩
      · exact .inr ⟨r, m, hfm.link hsize hr hrw p, hgm.link hgsize hgr hrw p⟩

/-- Linking a root keeps a forest tidy. -/
theorem Tidy.link (ht : f.Tidy) (hm : f.Allows (.link p w)) : (f.link p w).Tidy := by
  have hanc := ancestorOf_link_of_lt hm.1 p
  refine ⟨?_, ?_, ?_, ?_⟩
  · rw [Forest.link, Array.size_setIfInBounds]
    exact ht.label_size
  · intro v hv hroot
    rw [Forest.link, Array.size_setIfInBounds] at hv
    rw [hanc] at hroot
    split at hroot
    · cases hroot
    · exact ht.label_root v hv hroot
  · intro v hv
    change (f.link p w).ancestorOf (f.labelOf v) ≠ none
    rw [hanc] at hv ⊢
    split
    · simp
    · next hlabel =>
      split at hv
      · next hwv =>
        subst hwv
        exact absurd (ht.label_root w hm.1 hm.2.1).symm hlabel
      · exact ht.label_linked v hv
  · intro v hv
    rcases (ht.refl.link ht ht hm).means v with ⟨hnone, _⟩ | ⟨r, m, hmeans, _⟩
    · exact absurd hnone hv
    · exact ⟨r, m, hmeans⟩

/-! ## Moves -/

private theorem Tidy.move (ht : f.Tidy) {move : Move} (hm : f.Allows move) : (f.move move).Tidy := by
  cases move with
  | ask v => exact (ht.eval v).1
  | setSemi w s => exact ht.setSemi hm s
  | link p w => exact ht.link hm

/-- A move finds the same in alike forests and leaves them alike. -/
theorem Alike.move (hf : f.Tidy) (hg : g.Tidy) (h : f.Alike g) {move : Move} (hm : f.Allows move) :
    f.found? move = g.found? move ∧ (f.move move).Alike (g.move move) := by
  cases move with
  | ask v =>
    refine ⟨?_, ((hf.eval v).2.symm.trans h).trans (hg.eval v).2⟩
    simp only [found?]
    rw [h.semiOf_eval hf hg]
  | setSemi w s => exact ⟨rfl, h.setSemi hf hg hm s⟩
  | link p w => exact ⟨rfl, h.link hf hg hm⟩

/-- All moves that follow find the same in alike forests. -/
theorem Alike.found_eq (hf : f.Tidy) (hg : g.Tidy) (h : f.Alike g) {moves : List Move}
    (hm : f.AllowsAll moves) : g.found moves = f.found moves := by
  induction moves generalizing f g with
  | nil => rfl
  | cons move moves ih =>
    obtain ⟨hfirst, hrest⟩ := hm
    obtain ⟨hfound, hnext⟩ := h.move hf hg hfirst
    rw [found, found, hfound, ih (hf.move hfirst) (hg.move (h.allows hfirst)) hnext hrest]

end Forest
end Dominance
