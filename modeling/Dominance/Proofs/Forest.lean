import Dominance.Forest
import Dominance.Proofs.Ancestor

/-!
# What the link and eval forest knows

At any moment of the backward pass the numbers from some `k` on are linked. A linked number hangs
below one of its ancestors in the depth-first forest, and its label has the least semidominator of
all that was skipped. Compression keeps this, so `eval` finds the least semidominator among all linked
ancestors of a number.
-/

namespace Dominance
namespace Forest

/-- On the way from `v` up to `a`, which is not part of it, `u` has the least semidominator. -/
structure LeastBelow (n : Numbering) (f : Forest) (a v u : Nat) : Prop where
  ancestor : n.Ancestor u v
  lt : a < u
  least : ∀ y, n.Ancestor y v → a < y → f.semiOf u ≤ f.semiOf y

/-- A linked number `v` hangs below `a`: all that was skipped is linked, and the label is its best. -/
structure Hangs (n : Numbering) (k : Nat) (f : Forest) (v a : Nat) : Prop where
  ancestor : n.Ancestor a v
  lt : a < v
  linked : ∀ y, n.Ancestor y v → a < y → k ≤ y
  label : f.LeastBelow n a v (f.labelOf v)

/-- The numbers from `k` on are linked and no others. -/
structure Linked (n : Numbering) (k : Nat) (f : Forest) : Prop where
  semi_size : f.semi.size = n.size + 1
  ancestor_size : f.ancestor.size = n.size + 1
  label_size : f.label.size = n.size + 1
  root : ∀ v, v < k → f.ancestorOf v = none
  label_root : ∀ v, v < k → v ≤ n.size → f.labelOf v = v
  hangs : ∀ v, k ≤ v → v ≤ n.size → ∃ a, f.ancestorOf v = some a ∧ f.Hangs n k v a

variable {n : Numbering} {f g : Forest} {a k s u v w x y : Nat}

/-- Skipping an ancestor changes no semidominator. -/
@[simp] theorem semiOf_skip (f : Forest) (y x : Nat) : (f.skip y).semiOf x = f.semiOf x := by
  rw [semiOf, semi_skip, semiOf]

/-- Asking changes no semidominator. -/
@[simp] theorem semiOf_eval (f : Forest) (v x : Nat) : (f.eval v).2.semiOf x = f.semiOf x := by
  rw [semiOf, semi_eval, semiOf]

/-- Linking changes no semidominator. -/
@[simp] theorem semiOf_link (f : Forest) (p w x : Nat) : (f.link p w).semiOf x = f.semiOf x := rfl

/-- Skipping moves one number up to the ancestor of its ancestor. -/
theorem ancestorOf_skip (h : f.ancestorOf y = some a) (hy : y < f.ancestor.size) (x : Nat) :
    (f.skip y).ancestorOf x = if y = x then f.ancestorOf a else f.ancestorOf x := by
  have he : (f.skip y).ancestor = f.ancestor.setIfInBounds y (f.ancestorOf a) := by
    simp only [skip, h]
  rw [ancestorOf, he, getD_setIfInBounds]
  simp only [hy, and_true]
  rfl

/-- Linking hangs one number below another and moves no other number. -/
theorem ancestorOf_link_of_lt (hw : w < f.ancestor.size) (p x : Nat) :
    (f.link p w).ancestorOf x = if w = x then some p else f.ancestorOf x := by
  rw [ancestorOf_link]
  simp only [hw, and_true]

/-- Skipping leaves the better of two labels at the number that moves up. -/
theorem labelOf_skip (h : f.ancestorOf y = some a) (hy : y < f.label.size) (x : Nat) :
    (f.skip y).labelOf x =
      if y = x then
        if f.semiOf (f.labelOf a) < f.semiOf (f.labelOf y) then f.labelOf a else f.labelOf y
      else f.labelOf x := by
  have he : (f.skip y).label = f.label.setIfInBounds y
      (if f.semiOf (f.labelOf a) < f.semiOf (f.labelOf y) then f.labelOf a else f.labelOf y) := by
    simp only [skip, h]
  rw [labelOf, he, getD_setIfInBounds]
  simp only [hy, and_true]
  rfl

/-- Skipping keeps the sizes of both tables. -/
theorem size_skip (f : Forest) (y : Nat) :
    (f.skip y).ancestor.size = f.ancestor.size ∧ (f.skip y).label.size = f.label.size := by
  unfold skip
  split <;> simp

/-- A way up to `a` continues from `a`; the better of two labels is the best of both parts. -/
private theorem LeastBelow.append {b p q : Nat} (hn : n.DepthFirst) (hav : n.Ancestor a v)
    (hb : b < a) (hp : f.LeastBelow n a v p) (hq : f.LeastBelow n b a q) :
    f.LeastBelow n b v (if f.semiOf q < f.semiOf p then q else p) := by
  have hqa := hn.le_of_ancestor hq.ancestor
  have hcases : ∀ y, n.Ancestor y v → b < y → f.semiOf p ≤ f.semiOf y ∨ f.semiOf q ≤ f.semiOf y := by
    intro y hy hby
    rcases Nat.lt_or_ge a y with hlt | hge
    · exact Or.inl (hp.least y hy hlt)
    · exact Or.inr (hq.least y (hn.ancestor_of_le hy hav hge) hby)
  split
  · next hlt =>
    refine ⟨hq.ancestor.trans hav, hq.lt, ?_⟩
    intro y hy hby
    rcases hcases y hy hby with h | h <;> omega
  · next hge =>
    refine ⟨hp.ancestor, Nat.lt_trans hb hp.lt, ?_⟩
    intro y hy hby
    rcases hcases y hy hby with h | h <;> omega

/-- A number without ancestor is not linked. -/
theorem Linked.lt_of_root (h : f.Linked n k) (hv : v ≤ n.size) (hr : f.ancestorOf v = none) :
    v < k := by
  apply Nat.lt_of_not_le
  intro hk
  obtain ⟨a, ha, _⟩ := h.hangs v hk hv
  rw [hr] at ha
  cases ha

/-- A number with an ancestor is linked and hangs below it. -/
theorem Linked.hangs_of_ancestor (h : f.Linked n k) (hv : v ≤ n.size)
    (ha : f.ancestorOf v = some a) : k ≤ v ∧ f.Hangs n k v a := by
  have hk : k ≤ v := by
    apply Nat.le_of_not_lt
    intro hlt
    rw [h.root v hlt] at ha
    cases ha
  obtain ⟨b, hb, hh⟩ := h.hangs v hk hv
  rw [ha] at hb
  cases hb
  exact ⟨hk, hh⟩

/-- Skipping a linked ancestor keeps what the forest knows. -/
private theorem Linked.skip (hn : n.DepthFirst) (h : f.Linked n k) (hy : y ≤ n.size)
    (ha : f.ancestorOf y = some a) (hka : k ≤ a) : (f.skip y).Linked n k := by
  obtain ⟨hky, hya⟩ := h.hangs_of_ancestor hy ha
  have has := hn.ancestor_le_size hya.ancestor hy
  obtain ⟨b, hb, hab⟩ := h.hangs a hka has
  have hsize := size_skip f y
  have hanc := ancestorOf_skip ha (by rw [h.ancestor_size]; omega)
  have hlab := labelOf_skip ha (by rw [h.label_size]; omega)
  refine ⟨by rw [semi_skip, h.semi_size], by rw [hsize.1, h.ancestor_size],
    by rw [hsize.2, h.label_size], ?_, ?_, ?_⟩
  · intro v hv
    rw [hanc, if_neg (by omega)]
    exact h.root v hv
  · intro v hv hvs
    rw [hlab, if_neg (by omega)]
    exact h.label_root v hv hvs
  · intro v hv hvs
    by_cases hyv : y = v
    · subst hyv
      refine ⟨b, by rw [hanc, if_pos rfl, hb], hab.ancestor.trans hya.ancestor,
        Nat.lt_trans hab.lt hya.lt, ?_, ?_⟩
      · intro x hx hbx
        rcases Nat.lt_or_ge a x with hlt | hge
        · exact hya.linked x hx hlt
        · exact hab.linked x (hn.ancestor_of_le hx hya.ancestor hge) hbx
      · have := LeastBelow.append hn hya.ancestor hab.lt hya.label hab.label
        rw [hlab, if_pos rfl]
        exact ⟨this.ancestor, this.lt, by simpa using this.least⟩
    · obtain ⟨c, hc, hvc⟩ := h.hangs v hv hvs
      refine ⟨c, by rw [hanc, if_neg hyv, hc], hvc.ancestor, hvc.lt, hvc.linked, ?_⟩
      rw [hlab, if_neg hyv]
      exact ⟨hvc.label.ancestor, hvc.label.lt, by simpa using hvc.label.least⟩

/-- What has been passed before stays at the end of the way up. -/
theorem pathAbove_append (f : Forest) (fuel x : Nat) (path : List Nat) :
    f.pathAbove fuel x path = f.pathAbove fuel x [] ++ path := by
  induction fuel generalizing x path with
  | zero => rfl
  | succ fuel ih =>
    unfold pathAbove
    split
    · rfl
    · next a _ =>
      split
      · rfl
      · rw [ih a (x :: path), ih a [x], List.append_assoc, List.singleton_append]

/-- Compressing the way up from `v` touches nothing after `v` and leaves `v` below a root. The way up
goes to smaller numbers, so that fuel of `v` is enough. -/
private theorem Linked.compress_aux (hn : n.DepthFirst) (h : f.Linked n k) (hk : 0 < k)
    (hv : v ≤ n.size) (fuel : Nat) (hf : v ≤ fuel) :
    ((f.pathAbove fuel v []).foldl Forest.skip f).Linked n k ∧
      (∀ x, v < x → ((f.pathAbove fuel v []).foldl Forest.skip f).ancestorOf x = f.ancestorOf x) ∧
      (k ≤ v → ∃ r < k, ((f.pathAbove fuel v []).foldl Forest.skip f).ancestorOf v = some r) := by
  induction fuel generalizing v with
  | zero => exact ⟨h, fun _ _ => rfl, fun hkv => by omega⟩
  | succ fuel ih =>
    unfold pathAbove
    split
    · next hr =>
      have := h.lt_of_root hv hr
      exact ⟨h, fun _ _ => rfl, fun hkv => by omega⟩
    · next a ha =>
      obtain ⟨hkv, hva⟩ := h.hangs_of_ancestor hv ha
      have has := hn.ancestor_le_size hva.ancestor hv
      have hlt := hva.lt
      split
      · next hr => exact ⟨h, fun _ _ => rfl, fun _ => ⟨a, h.lt_of_root has hr, ha⟩⟩
      · next b hb =>
        have hka := (h.hangs_of_ancestor has hb).1
        obtain ⟨hg, hframe, hroot⟩ := ih has (by omega)
        rw [pathAbove_append, List.foldl_append]
        generalize (f.pathAbove fuel a []).foldl Forest.skip f = g at hg hframe hroot
        obtain ⟨r, hr, hgr⟩ := hroot hka
        have hgv : g.ancestorOf v = some a := by rw [hframe v hlt, ha]
        have hanc := ancestorOf_skip hgv (by rw [hg.ancestor_size]; omega)
        refine ⟨Linked.skip hn hg hv hgv hka, ?_, fun _ => ⟨r, hr, ?_⟩⟩
        · intro x hx
          rw [List.foldl_cons, List.foldl_nil, hanc, if_neg (by omega), hframe x (by omega)]
        · rw [List.foldl_cons, List.foldl_nil, hanc, if_pos rfl, hgr]

private theorem Linked.compress (hn : n.DepthFirst) (h : f.Linked n k) (hk : 0 < k)
    (hv : v ≤ n.size) :
    (f.compress v).Linked n k ∧ (k ≤ v → ∃ r < k, (f.compress v).ancestorOf v = some r) := by
  have := h.compress_aux hn hk hv f.ancestor.size (by rw [h.ancestor_size]; omega)
  exact ⟨this.1, this.2.2⟩

/-- Asking keeps what the forest knows. -/
theorem Linked.eval (hn : n.DepthFirst) (h : f.Linked n k) (hk : 0 < k) (hv : v ≤ n.size) :
    (f.eval v).2.Linked n k := by
  unfold Forest.eval
  split
  · exact h
  · exact (h.compress hn hk hv).1

/-- A number that is not linked is its own answer. -/
theorem Linked.eval_of_lt (h : f.Linked n k) (hv : v < k) : (f.eval v).1 = v := by
  unfold Forest.eval
  rw [h.root v hv]

/-- The answer for a linked number has the least semidominator among its linked ancestors. -/
theorem Linked.eval_least (hn : n.DepthFirst) (h : f.Linked n k) (hk : 0 < k) (hkv : k ≤ v)
    (hv : v ≤ n.size) :
    n.Ancestor (f.eval v).1 v ∧ k ≤ (f.eval v).1 ∧
      ∀ y, n.Ancestor y v → k ≤ y → f.semiOf (f.eval v).1 ≤ f.semiOf y := by
  obtain ⟨hg, hroot⟩ := h.compress hn hk hv
  obtain ⟨r, hr, hgr⟩ := hroot hkv
  obtain ⟨_, hh⟩ := hg.hangs_of_ancestor hv hgr
  obtain ⟨a, ha, _⟩ := h.hangs v hkv hv
  have he : (f.eval v).1 = (f.compress v).labelOf v := by
    unfold Forest.eval
    rw [ha]
  have hs : ∀ x, (f.compress v).semiOf x = f.semiOf x := by
    intro x
    rw [semiOf, semi_compress, semiOf]
  rw [he]
  refine ⟨hh.label.ancestor, hh.linked _ hh.label.ancestor hh.label.lt, ?_⟩
  intro y hy hky
  rw [← hs, ← hs]
  exact hh.label.least y hy (by omega)

/-- At first nothing is linked. -/
theorem linked_isolated (n : Numbering) : (isolated (n.size + 1)).Linked n (n.size + 1) := by
  refine ⟨by simp [isolated], by simp [isolated], by simp [isolated], ?_, ?_, ?_⟩
  · intro v _
    exact ancestorOf_isolated _ v
  · intro v hv _
    exact labelOf_isolated hv
  · intro v hv hvs
    omega

/-- A number with itself as label hangs below its parent once it is linked. -/
private theorem hangs_parentOf (hn : n.DepthFirst) (pos : 0 < w) (hw : w ≤ n.size)
    (hlabel : f.labelOf w = w) : f.Hangs n w w (n.parentOf w) where
  ancestor := Numbering.ancestor_parentOf pos hw
  lt := hn.parent_lt w pos hw
  linked y hy hlt := Nat.le_of_eq (hn.eq_of_parent_lt hy hlt).symm
  label := by
    rw [hlabel]
    refine ⟨.refl, hn.parent_lt w pos hw, ?_⟩
    intro y hy hlt
    exact Nat.le_of_eq (by rw [hn.eq_of_parent_lt hy hlt])

/-- What hangs somewhere stays there when the semidominator of a number that is not linked is set. -/
private theorem Hangs.setSemi (h : f.Hangs n k v a) (hw : w < k) (s : Nat) :
    (f.setSemi w s).Hangs n k v a where
  ancestor := h.ancestor
  lt := h.lt
  linked := h.linked
  label := by
    have hsemi : ∀ y, k ≤ y → (f.setSemi w s).semiOf y = f.semiOf y := by
      intro y hy
      rw [semiOf_setSemi, if_neg (by omega)]
    refine ⟨h.label.ancestor, h.label.lt, ?_⟩
    intro y hy hlt
    change semiOf _ (f.labelOf v) ≤ _
    rw [hsemi _ (h.linked _ h.label.ancestor h.label.lt), hsemi y (h.linked y hy hlt)]
    exact h.label.least y hy hlt

/-- Setting the semidominator of a number that is not linked keeps what the forest knows. -/
theorem Linked.setSemi (h : f.Linked n k) (hw : w < k) (s : Nat) : (f.setSemi w s).Linked n k where
  semi_size := by rw [Forest.setSemi, Array.size_setIfInBounds, h.semi_size]
  ancestor_size := h.ancestor_size
  label_size := h.label_size
  root := h.root
  label_root := h.label_root
  hangs v hv hvs := by
    obtain ⟨a, ha, hh⟩ := h.hangs v hv hvs
    exact ⟨a, ha, hh.setSemi hw s⟩

/-- What hangs somewhere stays there when an earlier number is linked. -/
private theorem Hangs.link (h : f.Hangs n (w + 1) v a) (p : Nat) : (f.link p w).Hangs n w v a where
  ancestor := h.ancestor
  lt := h.lt
  linked y hy hlt := Nat.le_of_succ_le (h.linked y hy hlt)
  label := ⟨h.label.ancestor, h.label.lt, h.label.least⟩

/-- Linking the next number keeps what the forest knows. -/
theorem Linked.link (hn : n.DepthFirst) (h : f.Linked n (w + 1)) (pos : 0 < w) (hw : w ≤ n.size) :
    (f.link (n.parentOf w) w).Linked n w := by
  have hlt : w < f.ancestor.size := by
    rw [h.ancestor_size]
    omega
  have hanc := ancestorOf_link_of_lt hlt (n.parentOf w)
  refine ⟨h.semi_size, ?_, h.label_size, ?_, ?_, ?_⟩
  · rw [Forest.link, Array.size_setIfInBounds, h.ancestor_size]
  · intro v hv
    rw [hanc, if_neg (by omega)]
    exact h.root v (by omega)
  · intro v hv hvs
    exact h.label_root v (by omega) hvs
  · intro v hv hvs
    by_cases hwv : w = v
    · subst hwv
      have hlabel := h.label_root w (by omega) hw
      exact ⟨n.parentOf w, by rw [hanc, if_pos rfl], hangs_parentOf hn pos hw hlabel⟩
    · obtain ⟨a, ha, hh⟩ := h.hangs v (by omega) hvs
      exact ⟨a, by rw [hanc, if_neg hwv, ha], hh.link (n.parentOf w)⟩

end Forest
end Dominance
