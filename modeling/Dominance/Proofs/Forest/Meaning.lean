import Mathlib.Data.List.Basic
import Mathlib.Data.List.Nodup
import Dominance.Proofs.Forest

/-!
# What a forest means

What a forest means at a linked number is the root of its tree and the least semidominator found on the
way up to it. Skipping an ancestor changes neither, for any number, so a forest and its compressed form
are alike, and an answer has the semidominator that the forest means.
-/

namespace Dominance
namespace Forest

/-- The way up from a linked number `v` to the root `r` of its tree, which is not part of it, and the
least semidominator `m` that labels on it have. -/
inductive Climbs (f : Forest) : Nat → List Nat → Nat → Nat → Prop where
  | top {v r : Nat} (hv : f.ancestorOf v = some r) (hr : f.ancestorOf r = none) :
    Climbs f v [v] r (f.semiOf (f.labelOf v))
  | up {v a r m : Nat} {path : List Nat} (hv : f.ancestorOf v = some a) (h : Climbs f a path r m) :
    Climbs f v (v :: path) r (min (f.semiOf (f.labelOf v)) m)

/-- At the number `v` the forest means the root `r` and the least semidominator `m`. -/
def Means (f : Forest) (v r m : Nat) : Prop := ∃ path, f.Climbs v path r m

/-- Ways up end, and labels name linked numbers, those of roots apart. -/
structure Tidy (f : Forest) : Prop where
  label_size : f.label.size = f.ancestor.size
  label_root : ∀ v, v < f.ancestor.size → f.ancestorOf v = none → f.labelOf v = v
  label_linked : ∀ v, f.ancestorOf v ≠ none → f.ancestorOf (f.labelOf v) ≠ none
  ends : ∀ v, f.ancestorOf v ≠ none → ∃ r m, f.Means v r m

/-- Two forests with the same semidominators that mean the same at every number. -/
structure Alike (f g : Forest) : Prop where
  semi : f.semi = g.semi
  ancestor_size : f.ancestor.size = g.ancestor.size
  means : ∀ v, (f.ancestorOf v = none ∧ g.ancestorOf v = none) ∨ ∃ r m, f.Means v r m ∧ g.Means v r m

variable {f g : Forest} {a b k m r s v x y fuel : Nat} {path other : List Nat}

/-! ## Ways up -/

private theorem lt_of_ancestorOf (hv : f.ancestorOf v = some a) : v < f.ancestor.size := by
  apply Nat.lt_of_not_le
  intro hle
  rw [ancestorOf, Array.getD_eq_getD_getElem?, Array.getElem?_eq_none hle] at hv
  cases hv

namespace Climbs

/-- A number with a way up is linked. -/
theorem exists_ancestor (hc : f.Climbs v path r m) : ∃ a, f.ancestorOf v = some a := by
  cases hc with
  | top hv _ => exact ⟨_, hv⟩
  | up hv _ => exact ⟨_, hv⟩

/-- A way up ends at a root. -/
theorem root (hc : f.Climbs v path r m) : f.ancestorOf r = none := by
  induction hc with
  | top _ hr => exact hr
  | up _ _ ih => exact ih

/-- There is one way up. -/
theorem unique (hc : f.Climbs v path r m) (hd : f.Climbs v other s k) :
    path = other ∧ r = s ∧ m = k := by
  induction hc generalizing other s k with
  | top hv hr =>
    cases hd with
    | top hv' _ =>
      cases hv.symm.trans hv'
      exact ⟨rfl, rfl, rfl⟩
    | up hv' hd =>
      cases hv.symm.trans hv'
      obtain ⟨a, ha⟩ := hd.exists_ancestor
      rw [hr] at ha
      cases ha
  | up hv hc ih =>
    cases hd with
    | top hv' hr =>
      cases hv.symm.trans hv'
      obtain ⟨a, ha⟩ := hc.exists_ancestor
      rw [hr] at ha
      cases ha
    | up hv' hd =>
      cases hv.symm.trans hv'
      obtain ⟨rfl, rfl, rfl⟩ := ih hd
      exact ⟨rfl, rfl, rfl⟩

/-- From each number on a way up, the rest of the way leads up. -/
theorem of_mem (hc : f.Climbs v path r m) (hx : x ∈ path) :
    ∃ rest k, f.Climbs x rest r k ∧ rest.length ≤ path.length := by
  induction hc with
  | top hv hr =>
    cases List.mem_singleton.mp hx
    exact ⟨_, _, .top hv hr, Nat.le_refl _⟩
  | @up v a r m path hv hc ih =>
    rcases List.mem_cons.mp hx with rfl | hx
    · exact ⟨_, _, .up hv hc, Nat.le_refl _⟩
    · obtain ⟨rest, k, hrest, hle⟩ := ih hx
      exact ⟨rest, k, hrest, Nat.le_succ_of_le hle⟩

/-- A number is not met again on its way up, because the way from there would be as long. -/
theorem not_mem (hv : f.ancestorOf v = some a) (hc : f.Climbs a path r m) : v ∉ path := by
  intro hmem
  obtain ⟨rest, k, hrest, hle⟩ := hc.of_mem hmem
  have := (hrest.unique (.up hv hc)).1
  rw [this, List.length_cons] at hle
  omega

private theorem nodup (hc : f.Climbs v path r m) : path.Nodup := by
  induction hc with
  | top _ _ => exact List.nodup_singleton _
  | up hv hc ih => exact List.nodup_cons.mpr ⟨not_mem hv hc, ih⟩

private theorem length_le (hc : f.Climbs v path r m) : path.length ≤ f.ancestor.size := by
  have hsub : path ⊆ List.range f.ancestor.size := by
    intro x hx
    obtain ⟨_, _, hrest, _⟩ := hc.of_mem hx
    obtain ⟨a, ha⟩ := hrest.exists_ancestor
    exact List.mem_range.mpr (lt_of_ancestorOf ha)
  simpa using hc.nodup.length_le_of_subset hsub

/-- A way up that goes on from its end. -/
theorem append (hc : f.Climbs v path r m) (hg : g.Climbs r other s k)
    (hanc : ∀ x ∈ path, g.ancestorOf x = f.ancestorOf x)
    (hbest : ∀ x ∈ path, g.semiOf (g.labelOf x) = f.semiOf (f.labelOf x)) :
    g.Climbs v (path ++ other) s (min m k) := by
  induction hc with
  | @top v r hv hr =>
    rw [← hbest v List.mem_cons_self]
    exact .up (by rw [hanc v List.mem_cons_self, hv]) hg
  | @up v a r m path hv hc ih =>
    rw [← hbest v List.mem_cons_self, Nat.min_assoc]
    exact .up (by rw [hanc v List.mem_cons_self, hv])
      (ih hg (fun x hx => hanc x (List.mem_cons_of_mem v hx))
        fun x hx => hbest x (List.mem_cons_of_mem v hx))

/-- A way up is the same in a forest that has the same ancestors and labels on it. -/
theorem congr (hc : f.Climbs v path r m) (hr : g.ancestorOf r = none)
    (hanc : ∀ x ∈ path, g.ancestorOf x = f.ancestorOf x)
    (hbest : ∀ x ∈ path, g.semiOf (g.labelOf x) = f.semiOf (f.labelOf x)) : g.Climbs v path r m := by
  induction hc with
  | @top v r hv _ =>
    rw [← hbest v List.mem_cons_self]
    exact .top (by rw [hanc v List.mem_cons_self, hv]) hr
  | @up v a r m path hv hc ih =>
    rw [← hbest v List.mem_cons_self]
    exact .up (by rw [hanc v List.mem_cons_self, hv])
      (ih hr (fun x hx => hanc x (List.mem_cons_of_mem v hx))
        fun x hx => hbest x (List.mem_cons_of_mem v hx))

end Climbs

private theorem Means.unique (hm : f.Means v r m) (hk : f.Means v s k) : r = s ∧ m = k := by
  obtain ⟨_, hc⟩ := hm
  obtain ⟨_, hd⟩ := hk
  exact (hc.unique hd).2

/-- The forest means something at linked numbers only. -/
theorem Means.linked (hm : f.Means v r m) : f.ancestorOf v ≠ none := by
  obtain ⟨_, hc⟩ := hm
  obtain ⟨a, ha⟩ := hc.exists_ancestor
  simp [ha]

/-! ## Alike forests -/

/-- Forests that are alike have the same semidominators. -/
theorem Alike.semiOf (h : f.Alike g) (x : Nat) : f.semiOf x = g.semiOf x := by
  rw [Forest.semiOf, h.semi, Forest.semiOf]

/-- Forests that are alike have the same roots. -/
theorem Alike.root_iff (h : f.Alike g) (v : Nat) : f.ancestorOf v = none ↔ g.ancestorOf v = none := by
  rcases h.means v with ⟨hf, hg⟩ | ⟨r, m, hf, hg⟩
  · rw [hf, hg]
  · exact ⟨fun hv => absurd hv hf.linked, fun hv => absurd hv hg.linked⟩

/-- What a forest means, a forest that is alike means too. -/
theorem Alike.means_of (h : f.Alike g) (hm : f.Means v r m) : g.Means v r m := by
  rcases h.means v with ⟨hf, _⟩ | ⟨s, k, hf, hg⟩
  · exact absurd hf hm.linked
  · obtain ⟨rfl, rfl⟩ := hm.unique hf
    exact hg

private theorem Tidy.alike (ht : f.Tidy) (hsemi : f.semi = g.semi)
    (hsize : f.ancestor.size = g.ancestor.size)
    (hroot : ∀ v, f.ancestorOf v = none → g.ancestorOf v = none)
    (hmeans : ∀ v r m, f.Means v r m → g.Means v r m) : f.Alike g where
  semi := hsemi
  ancestor_size := hsize
  means v := by
    by_cases hv : f.ancestorOf v = none
    · exact .inl ⟨hv, hroot v hv⟩
    · obtain ⟨r, m, hm⟩ := ht.ends v hv
      exact .inr ⟨r, m, hm, hmeans v r m hm⟩

/-- A tidy forest is like itself. -/
theorem Tidy.refl (ht : f.Tidy) : f.Alike f :=
  ht.alike rfl rfl (fun _ hv => hv) fun _ _ _ hm => hm

/-- Being alike goes both ways. -/
theorem Alike.symm (h : f.Alike g) : g.Alike f where
  semi := h.semi.symm
  ancestor_size := h.ancestor_size.symm
  means v := by
    rcases h.means v with ⟨hf, hg⟩ | ⟨r, m, hf, hg⟩
    · exact .inl ⟨hg, hf⟩
    · exact .inr ⟨r, m, hg, hf⟩

/-- Being alike carries over from one forest to the next. -/
theorem Alike.trans {l : Forest} (h : f.Alike g) (h' : g.Alike l) : f.Alike l where
  semi := h.semi.trans h'.semi
  ancestor_size := h.ancestor_size.trans h'.ancestor_size
  means v := by
    rcases h.means v with ⟨hf, hg⟩ | ⟨r, m, hf, hg⟩
    · exact .inl ⟨hf, (h'.root_iff v).mp hg⟩
    · exact .inr ⟨r, m, hf, h'.means_of hg⟩

/-! ## Compression -/

/-- Skipping a linked ancestor leaves every number linked or not. -/
theorem ancestorOf_skip_eq_none (ha : f.ancestorOf y = some a) (hb : f.ancestorOf a = some b) (x : Nat) :
    (f.skip y).ancestorOf x = none ↔ f.ancestorOf x = none := by
  rw [ancestorOf_skip ha (lt_of_ancestorOf ha)]
  split
  · next hx => simp [← hx, ha, hb]
  · rfl

section

variable (ht : f.Tidy) (ha : f.ancestorOf y = some a) (hb : f.ancestorOf a = some b)
include ht ha

/-- The better of two labels has the lesser of the two semidominators. -/
theorem Tidy.best_skip (x : Nat) : (f.skip y).semiOf ((f.skip y).labelOf x) =
    if y = x then min (f.semiOf (f.labelOf y)) (f.semiOf (f.labelOf a)) else f.semiOf (f.labelOf x) := by
  have hy : y < f.label.size := ht.label_size ▸ lt_of_ancestorOf ha
  rw [semiOf_skip, labelOf_skip ha hy]
  split
  · split <;> omega
  · rfl

include hb

/-- Skipping a linked ancestor leaves the meaning of every number. What a number's ancestor means is
carried along, for where that ancestor is the one skipped, the way goes on from there. -/
theorem Climbs.skip (hc : f.Climbs v path r m) : (f.skip y).Means v r m ∧
    ∀ c, f.ancestorOf v = some c → f.ancestorOf c ≠ none →
      ∃ k, (f.skip y).Means c r k ∧ m = min (f.semiOf (f.labelOf v)) k := by
  have hanc := ancestorOf_skip ha (lt_of_ancestorOf ha)
  have hbest := ht.best_skip ha
  induction hc with
  | @top v r hv hr =>
    have hne : y ≠ v := by
      rintro rfl
      cases ha.symm.trans hv
      rw [hb] at hr
      cases hr
    refine ⟨⟨[v], ?_⟩, ?_⟩
    · have := hbest v
      rw [if_neg hne] at this
      rw [← this]
      exact .top (by rw [hanc, if_neg hne, hv]) ((ancestorOf_skip_eq_none ha hb r).mpr hr)
    · intro c hvc hc
      cases hv.symm.trans hvc
      exact absurd hr hc
  | @up v c r m path hv hc ih =>
    obtain ⟨⟨rest, hrest⟩, hnext⟩ := ih
    refine ⟨?_, ?_⟩
    · by_cases hne : y = v
      · subst hne
        cases ha.symm.trans hv
        have hy := hbest y
        rw [if_pos rfl] at hy
        have hyb : (f.skip y).ancestorOf y = some b := by rw [hanc, if_pos rfl, hb]
        cases hc with
        | top hv' hr' =>
          cases hb.symm.trans hv'
          rw [← hy]
          exact ⟨[y], .top hyb ((ancestorOf_skip_eq_none ha hb b).mpr hr')⟩
        | up hv' hc' =>
          cases hb.symm.trans hv'
          obtain ⟨d, hd⟩ := hc'.exists_ancestor
          obtain ⟨k, ⟨above, habove⟩, hk⟩ := hnext b hb (by simp [hd])
          rw [hk, ← Nat.min_assoc, ← hy]
          exact ⟨y :: above, .up hyb habove⟩
      · have hv' := hbest v
        rw [if_neg hne] at hv'
        rw [← hv']
        exact ⟨v :: rest, .up (by rw [hanc, if_neg hne, hv]) hrest⟩
    · intro d hvd _
      cases hv.symm.trans hvd
      exact ⟨m, ⟨rest, hrest⟩, rfl⟩

private theorem Tidy.skip : (f.skip y).Tidy ∧ f.Alike (f.skip y) := by
  have hsize := size_skip f y
  have hy : y < f.label.size := ht.label_size ▸ lt_of_ancestorOf ha
  have hroot := ancestorOf_skip_eq_none ha hb
  have hmeans : ∀ v r m, f.Means v r m → (f.skip y).Means v r m := by
    rintro v r m ⟨path, hc⟩
    exact (hc.skip ht ha hb).1
  refine ⟨⟨by rw [hsize.1, hsize.2, ht.label_size], ?_, ?_, ?_⟩,
    ht.alike (semi_skip f y).symm hsize.1.symm (fun v hv => (hroot v).mpr hv) hmeans⟩
  · intro v hv hr
    rw [hsize.1] at hv
    rw [hroot] at hr
    rw [labelOf_skip ha hy, if_neg (by rintro rfl; rw [ha] at hr; cases hr)]
    exact ht.label_root v hv hr
  · intro v hv
    rw [ne_eq, hroot] at hv
    rw [ne_eq, hroot, labelOf_skip ha hy]
    split
    · split
      · exact ht.label_linked a (by simp [hb])
      · exact ht.label_linked y (by simp [ha])
    · exact ht.label_linked v hv
  · intro v hv
    rw [ne_eq, hroot] at hv
    obtain ⟨r, m, hm⟩ := ht.ends v hv
    exact ⟨r, m, hmeans v r m hm⟩

end

/-- Compressing the way up from a number leaves it directly below the root and changes nothing off the
way. Fuel for the length of the way is enough. -/
theorem Climbs.compress (ht : f.Tidy) (hc : f.Climbs v path r m) (hfuel : path.length ≤ fuel) :
    ((f.pathAbove fuel v []).foldl Forest.skip f).Tidy ∧
      f.Alike ((f.pathAbove fuel v []).foldl Forest.skip f) ∧
      ((f.pathAbove fuel v []).foldl Forest.skip f).ancestorOf v = some r ∧
      ∀ x, x ∉ path →
        ((f.pathAbove fuel v []).foldl Forest.skip f).ancestorOf x = f.ancestorOf x := by
  induction hc generalizing fuel with
  | @top v r hv hr =>
    obtain ⟨fuel, rfl⟩ : ∃ k, fuel = k + 1 := ⟨fuel - 1, by rw [List.length_singleton] at hfuel; omega⟩
    have hpath : f.pathAbove (fuel + 1) v [] = [] := by simp [pathAbove, hv, hr]
    rw [hpath]
    exact ⟨ht, ht.refl, hv, fun _ _ => rfl⟩
  | @up v a r m path hv hc ih =>
    rw [List.length_cons] at hfuel
    obtain ⟨fuel, rfl⟩ : ∃ k, fuel = k + 1 := ⟨fuel - 1, by omega⟩
    obtain ⟨b, hb⟩ := hc.exists_ancestor
    have hpath : f.pathAbove (fuel + 1) v [] = f.pathAbove fuel a [] ++ [v] := by
      simp only [pathAbove, hv, hb]
      exact pathAbove_append f fuel a [v]
    rw [hpath, List.foldl_append, List.foldl_cons, List.foldl_nil]
    obtain ⟨hg, hfg, hga, hframe⟩ := ih (Nat.le_of_succ_le_succ hfuel)
    generalize (f.pathAbove fuel a []).foldl Forest.skip f = g at hg hfg hga hframe
    have hgv : g.ancestorOf v = some a := by rw [hframe v (Climbs.not_mem hv hc), hv]
    have hanc := ancestorOf_skip hgv (lt_of_ancestorOf hgv)
    obtain ⟨hskip, halike⟩ := hg.skip hgv hga
    refine ⟨hskip, hfg.trans halike, by rw [hanc, if_pos rfl, hga], ?_⟩
    intro x hx
    rw [List.mem_cons, not_or] at hx
    rw [hanc, if_neg (Ne.symm hx.1), hframe x hx.2]

/-- Asking leaves a forest that means the same. -/
theorem Tidy.eval (ht : f.Tidy) (v : Nat) : (f.eval v).2.Tidy ∧ f.Alike (f.eval v).2 := by
  unfold Forest.eval
  split
  · exact ⟨ht, ht.refl⟩
  · next a ha =>
    obtain ⟨r, m, path, hc⟩ := ht.ends v (by simp [ha])
    have := hc.compress ht hc.length_le
    exact ⟨this.1, this.2.1⟩

/-- The answer has the least semidominator on the way up. -/
theorem Means.semiOf_eval (ht : f.Tidy) (hm : f.Means v r m) : f.semiOf (f.eval v).1 = m := by
  obtain ⟨path, hc⟩ := hm
  obtain ⟨a, ha⟩ := hc.exists_ancestor
  obtain ⟨hg, hfg, hgv, _⟩ := hc.compress ht hc.length_le
  have heval : (f.eval v).1 = (f.compress v).labelOf v := by
    unfold Forest.eval
    rw [ha]
  have hr : (f.compress v).ancestorOf r = none := (hfg.root_iff r).mp hc.root
  have hdirect : (f.compress v).Means v r ((f.compress v).semiOf ((f.compress v).labelOf v)) :=
    ⟨[v], .top hgv hr⟩
  rw [heval, hfg.semiOf]
  exact (hdirect.unique (hfg.means_of ⟨path, hc⟩)).2

/-- Alike forests give answers with the same semidominator. -/
theorem Alike.semiOf_eval (hf : f.Tidy) (hg : g.Tidy) (h : f.Alike g) (v : Nat) :
    f.semiOf (f.eval v).1 = g.semiOf (g.eval v).1 := by
  rcases h.means v with ⟨hfv, hgv⟩ | ⟨r, m, hfm, hgm⟩
  · simp [Forest.eval, hfv, hgv, h.semiOf]
  · rw [hfm.semiOf_eval hf, hgm.semiOf_eval hg]

/-! ## The forest of the backward pass -/

variable {n : Numbering}

/-- A linked number belongs to the numbering and hangs below its ancestor. -/
theorem Linked.exists_hangs (h : f.Linked n k) (hv : f.ancestorOf v ≠ none) :
    ∃ a, f.ancestorOf v = some a ∧ v ≤ n.size ∧ f.Hangs n k v a := by
  obtain ⟨a, ha⟩ := Option.ne_none_iff_exists'.mp hv
  have hlt := lt_of_ancestorOf ha
  rw [h.ancestor_size] at hlt
  exact ⟨a, ha, Nat.le_of_lt_succ hlt, (h.hangs_of_ancestor (Nat.le_of_lt_succ hlt) ha).2⟩

/-- A forest in which the numbers from `k` on are linked is tidy. -/
theorem Linked.tidy (hn : n.DepthFirst) (h : f.Linked n k) : f.Tidy where
  label_size := by rw [h.label_size, h.ancestor_size]
  label_root v hv hr := by
    rw [h.ancestor_size] at hv
    exact h.label_root v (h.lt_of_root (Nat.le_of_lt_succ hv) hr) (Nat.le_of_lt_succ hv)
  label_linked v hv := by
    obtain ⟨a, _, hle, hh⟩ := h.exists_hangs hv
    have hlabel := hh.linked _ hh.label.ancestor hh.label.lt
    obtain ⟨b, hb, _⟩ := h.hangs _ hlabel (hn.ancestor_le_size hh.label.ancestor hle)
    simp [hb]
  ends v := by
    -- Ways up lead to smaller numbers.
    induction v using Nat.strongRecOn with
    | ind v ih =>
      intro hv
      obtain ⟨a, ha, _, hh⟩ := h.exists_hangs hv
      by_cases hr : f.ancestorOf a = none
      · exact ⟨a, _, [v], .top ha hr⟩
      · obtain ⟨r, m, path, hc⟩ := ih a hh.lt hr
        exact ⟨r, _, v :: path, .up ha hc⟩

end Forest
end Dominance
