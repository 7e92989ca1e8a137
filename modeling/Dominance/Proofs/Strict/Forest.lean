import Mathlib.Data.List.Basic
import Mathlib.Logic.Relation
import Dominance.Proofs.Forest
import Dominance.Proofs.Numbering
import Dominance.Strict.Sweep

/-!
# Ranks

A flow may lead past its block count. Blocks are then visited more than once, each is known by its last
number, and a parent may have a greater number than its child. What still decreases on the way up is
the *rank* of a number: the first position at which its block stands. Linking and compression keep
this, so ways up the forest come to an end, and all numbers on them are present.
-/

namespace Dominance
namespace Strict

variable {α β σ : Type}

/-- An index below the size is found. -/
theorem getElem?_of_lt {a : Array α} {i : Nat} (h : i < a.size) (d : α) :
    a[i]? = some (a.getD i d) := by
  rw [Array.getD_eq_getD_getElem?, Array.getElem?_eq_getElem h, Option.getD_some]

/-- An index below the size can be written. -/
theorem write_of_lt {a : Array α} {i : Nat} (h : i < a.size) (x : α) :
    write a i x = some (a.setIfInBounds i x) := if_pos h

/-- A strict loop follows a loop if each round does, from states that the loop can be in. -/
theorem foldlM_eq_some {step : σ → α → Option σ} {next : σ → α → σ} {P : σ → Prop} {xs : List α}
    (h : ∀ s x, x ∈ xs → P s → step s x = some (next s x) ∧ P (next s x)) {s : σ} (hs : P s) :
    xs.foldlM step s = some (xs.foldl next s) ∧ P (xs.foldl next s) := by
  induction xs generalizing s with
  | nil => exact ⟨rfl, hs⟩
  | cons x xs ih =>
    have hx := h s x List.mem_cons_self hs
    have hrest := ih (fun s y hy => h s y (List.mem_cons_of_mem x hy)) hx.2
    rw [List.foldlM_cons, hx.1]
    exact hrest

/-- If every element has a result, a list has the list of results. -/
theorem mapM_eq_some {f : α → Option β} {g : α → β} {xs : List α}
    (h : ∀ x ∈ xs, f x = some (g x)) : xs.mapM f = some (xs.map g) := by
  induction xs with
  | nil => rfl
  | cons x xs ih =>
    rw [List.mapM_cons, h x List.mem_cons_self, ih fun y hy => h y (List.mem_cons_of_mem x hy)]
    rfl

/-- Every entry of a table of the given size is an index of it. -/
structure Closed (size : Nat) (a : Array Nat) : Prop where
  size_eq : a.size = size
  lt : ∀ i < size, a.getD i 0 < size

namespace Closed

variable {size i x : Nat} {a : Array Nat}

/-- A table that sends every index to itself is closed. -/
theorem range (size : Nat) : Closed size (Array.range size) where
  size_eq := Array.size_range
  lt i hi := by simp [Array.getD_eq_getD_getElem?, hi]

/-- A table of zeros is closed. -/
theorem zeros (size : Nat) : Closed size (Array.replicate size 0) where
  size_eq := Array.size_replicate
  lt i hi := by
    simp [Array.getD_eq_getD_getElem?, hi]
    omega

/-- Every index of a closed table is found. -/
theorem read (h : Closed size a) (hi : i < size) : a[i]? = some (a.getD i 0) :=
  getElem?_of_lt (h.size_eq ▸ hi) 0

/-- Every index of a closed table can be written. -/
theorem write (h : Closed size a) (hi : i < size) (x : Nat) :
    Strict.write a i x = some (a.setIfInBounds i x) := write_of_lt (h.size_eq ▸ hi) x

/-- Writing an index of a closed table into it keeps it closed. -/
theorem set (h : Closed size a) (hx : x < size) (i : Nat) : Closed size (a.setIfInBounds i x) where
  size_eq := by rw [Array.size_setIfInBounds, h.size_eq]
  lt j hj := by
    rw [Forest.getD_setIfInBounds]
    split
    · exact hx
    · exact h.lt j hj

/-- Writing what is there already. -/
theorem set_self (h : Closed size a) (hi : i < size) : a.setIfInBounds i (a.getD i 0) = a := by
  apply Array.ext_getElem?
  intro j
  rw [Array.getElem?_setIfInBounds]
  split
  · next hj => rw [← hj, h.read hi, if_pos (h.size_eq ▸ hi)]
  · rfl

end Closed
end Strict

/-! ### Numbers -/

namespace Survey

variable {f : Flow} {order : List Block} {b c : Block} {v : Nat}

private theorem idxOf_lt_of_mem_takeWhile (h : c ∈ order.takeWhile (· ≠ b)) :
    order.idxOf c < order.idxOf b := by
  induction order with
  | nil => cases h
  | cons x order ih =>
    by_cases hx : x = b
    · simp [hx] at h
    · rw [List.takeWhile_cons_of_pos (by simp [hx]), List.mem_cons] at h
      rw [List.idxOf_cons_ne _ hx]
      by_cases hc : x = c
      · rw [hc, List.idxOf_cons_self]
        omega
      · rw [List.idxOf_cons_ne _ hc]
        have := ih (h.resolve_left (Ne.symm hc))
        omega

/-- The parent of a block is the virtual entry or the number of a block that comes first before the
block does. -/
theorem parentNumber_cases (f : Flow) (order : List Block) (b : Block) :
    (ofOrder f order).parentNumber b = 0 ∨ ∃ j c, (ofOrder f order).parentNumber b = j + 1 ∧
      order[j]? = some c ∧ order.idxOf c < order.idxOf b := by
  unfold parentNumber
  cases hc : (ofOrder f order).finder[b]? with
  | none => exact Or.inl rfl
  | some c =>
    rw [Option.bind_some]
    cases hj : (ofOrder f order).position[c]? with
    | none => exact Or.inl rfl
    | some j =>
      rw [finder_eq] at hc
      have hmem := List.mem_reverse.mp (List.mem_of_find?_eq_some hc)
      exact Or.inr ⟨j, c, rfl, getElem?_of_position hj, idxOf_lt_of_mem_takeWhile hmem⟩

/-- The sources of a block are numbered. -/
theorem le_length_of_mem_sourceNumbers (h : v ∈ (ofOrder f order).sourceNumbers b) :
    v ≤ order.length := by
  unfold sourceNumbers at h
  rw [List.mem_filterMap] at h
  obtain ⟨c, _, hv⟩ := h
  obtain ⟨j, hj, rfl⟩ := Option.map_eq_some_iff.mp hv
  exact (List.getElem?_eq_some_iff.mp (getElem?_of_position hj)).1

end Survey

namespace Numbering

/-- The first position at which the block of a number stands, counted from one. The virtual entry has
rank zero. -/
def rank (n : Numbering) (w : Nat) : Nat :=
  match n.block? w with
  | none => 0
  | some b => n.order.toList.idxOf b + 1

/-- Every position and number named is present, and parents have smaller ranks. -/
structure Ranked (n : Numbering) : Prop where
  order_position : ∀ (b : Block) (i : Nat), n.position[b]? = some i → n.order[i]? = some b
  targets_size : n.targets.size = n.size
  parent_size : n.parent.size = n.size + 1
  preds_size : n.preds.size = n.size + 1
  parent_lt : ∀ w, n.parentOf w < n.size + 1
  preds_lt : ∀ w v, v ∈ n.predsOf w → v < n.size + 1
  rank_lt : ∀ w, 0 < w → w ≤ n.size → n.rank (n.parentOf w) < n.rank w

variable {f : Flow} {roots order : List Block} {b : Block} {i : Nat}

private theorem rank_le (n : Numbering) (w : Nat) : n.rank w ≤ n.size := by
  unfold rank
  split
  · exact Nat.zero_le _
  · next b hb =>
    have hmem : b ∈ n.order.toList := by
      cases w with
      | zero => cases hb
      | succ i =>
        apply List.mem_of_getElem?
        rw [Array.getElem?_toList]
        exact hb
    rw [size, ← Array.length_toList]
    exact List.idxOf_lt_length_iff.mpr hmem

private theorem rank_succ (hb : order[i]? = some b) :
    (ofOrder f roots order).rank (i + 1) = order.idxOf b + 1 := by
  simp [rank, block?, ofOrder, hb]

/-- The numbering of any order of visits is ranked. -/
theorem ranked_ofOrder (f : Flow) (roots order : List Block) : (ofOrder f roots order).Ranked where
  order_position b i h := by
    have := Survey.getElem?_of_position h
    simpa [ofOrder] using this
  targets_size := by simp [ofOrder, size]
  parent_size := by simp [ofOrder, size]
  preds_size := by simp [ofOrder, size]
  parent_lt w := by
    rw [size_ofOrder]
    rcases w with _ | i
    · exact Nat.succ_pos _
    · cases hb : order[i]? with
      | none => simp [parentOf, ofOrder, Array.getD_eq_getD_getElem?, hb]
      | some b =>
        rw [parentOf_succ hb]
        rcases Survey.parentNumber_cases f order b with h | ⟨j, c, h, hj, _⟩
        · omega
        · have := (List.getElem?_eq_some_iff.mp hj).1
          omega
  preds_lt w v hv := by
    rw [size_ofOrder]
    rcases w with _ | i
    · simp [predsOf, ofOrder, Array.getD_eq_getD_getElem?] at hv
    · cases hb : order[i]? with
      | none => simp [predsOf, ofOrder, Array.getD_eq_getD_getElem?, hb] at hv
      | some b =>
        have hpreds : (ofOrder f roots order).predsOf (i + 1) =
            (Survey.ofOrder f order).sourceNumbers b ++
              if (Std.ExtTreeSet.ofList roots).contains b then [0] else [] := by
          simp [predsOf, ofOrder, Array.getD_eq_getD_getElem?, hb]
        rw [hpreds, List.mem_append] at hv
        rcases hv with hv | hv
        · exact Nat.lt_succ_of_le (Survey.le_length_of_mem_sourceNumbers hv)
        · split at hv
          · rw [List.mem_singleton.mp hv]
            exact Nat.succ_pos _
          · cases hv
  rank_lt w pos hw := by
    rw [size_ofOrder] at hw
    rcases w with _ | i
    · omega
    · have hb : order[i]? = some order[i] := List.getElem?_eq_getElem hw
      rw [parentOf_succ hb, rank_succ hb]
      rcases Survey.parentNumber_cases f order order[i] with h | ⟨j, c, h, hj, hlt⟩
      · rw [h]
        exact Nat.succ_pos _
      · rw [h, rank_succ hj]
        omega

end Numbering

/-! ### The link and eval forest -/

namespace Forest

/-- No number is met again on its own way up. -/
def Acyclic (f : Forest) : Prop :=
  ∀ v, ¬Relation.TransGen (fun x a => f.ancestorOf x = some a) v v

/-- Every number named is present, and ancestors have smaller ranks. -/
structure Ranked (n : Numbering) (f : Forest) : Prop where
  semi : Strict.Closed (n.size + 1) f.semi
  label : Strict.Closed (n.size + 1) f.label
  ancestor_size : f.ancestor.size = n.size + 1
  ancestor_lt : ∀ v a, f.ancestorOf v = some a → a < n.size + 1
  rank_lt : ∀ v a, f.ancestorOf v = some a → n.rank a < n.rank v

/-- The forests that arise from the one without links: semidominators are set, numbers are linked
below their parents, and ancestors are skipped, in whatever order. -/
inductive Arises (n : Numbering) : Forest → Prop where
  | isolated : Arises n (isolated (n.size + 1))
  | setSemi {f : Forest} {w s : Nat} (h : Arises n f) (hs : s < n.size + 1) : Arises n (f.setSemi w s)
  | link {f : Forest} {w : Nat} (h : Arises n f) (pos : 0 < w) (hw : w ≤ n.size) :
    Arises n (f.link (n.parentOf w) w)
  | skip {f : Forest} {y : Nat} (h : Arises n f) (hy : y < n.size + 1) : Arises n (f.skip y)

variable {n : Numbering} {f : Forest} {a fuel k p s v w x y : Nat} {path : List Nat}

private theorem ranked_isolated (n : Numbering) : (isolated (n.size + 1)).Ranked n where
  semi := .range _
  label := .range _
  ancestor_size := Array.size_replicate
  ancestor_lt v a h := by
    rw [ancestorOf_isolated] at h
    cases h
  rank_lt v a h := by
    rw [ancestorOf_isolated] at h
    cases h

namespace Ranked

private theorem read_ancestor (h : f.Ranked n) (hv : v < n.size + 1) :
    f.ancestor[v]? = some (f.ancestorOf v) := Strict.getElem?_of_lt (h.ancestor_size ▸ hv) none

/-- The semidominator of every number is found. -/
theorem read_semi (h : f.Ranked n) (hv : v < n.size + 1) : f.semi[v]? = some (f.semiOf v) :=
  h.semi.read hv

private theorem read_label (h : f.Ranked n) (hv : v < n.size + 1) : f.label[v]? = some (f.labelOf v) :=
  h.label.read hv

private theorem label_lt (h : f.Ranked n) (hv : v < n.size + 1) : f.labelOf v < n.size + 1 :=
  h.label.lt v hv

/-- Ranks decrease all the way up. -/
theorem acyclic (h : f.Ranked n) : f.Acyclic := by
  intro v hv
  have hdown : ∀ x, Relation.TransGen (fun x a => f.ancestorOf x = some a) v x →
      n.rank x < n.rank v := by
    intro x hx
    induction hx with
    | single hstep => exact h.rank_lt _ _ hstep
    | tail _ hstep ih => exact (h.rank_lt _ _ hstep).trans ih
  exact Nat.lt_irrefl _ (hdown v hv)

private theorem setSemi (h : f.Ranked n) (hs : s < n.size + 1) : (f.setSemi w s).Ranked n :=
  { h with semi := h.semi.set hs w }

/-- Linking below a number of smaller rank. -/
theorem link (h : f.Ranked n) (hp : p < n.size + 1) (hlt : n.rank p < n.rank w) :
    (f.link p w).Ranked n where
  semi := h.semi
  label := h.label
  ancestor_size := by rw [Forest.link, Array.size_setIfInBounds, h.ancestor_size]
  ancestor_lt v a ha := by
    rw [ancestorOf_link] at ha
    split at ha
    · cases ha
      exact hp
    · exact h.ancestor_lt v a ha
  rank_lt v a ha := by
    rw [ancestorOf_link] at ha
    split at ha
    · next hv =>
      cases ha
      rw [← hv.1]
      exact hlt
    · exact h.rank_lt v a ha

/-- Skipping lowers the rank of the ancestor further. -/
theorem skip (h : f.Ranked n) (hy : y < n.size + 1) : (f.skip y).Ranked n := by
  cases ha : f.ancestorOf y with
  | none =>
    have hsame : f.skip y = f := by simp only [Forest.skip, ha]
    rw [hsame]
    exact h
  | some a =>
    have hanc := ancestorOf_skip ha (h.ancestor_size ▸ hy)
    refine ⟨by rw [semi_skip]; exact h.semi, ?_, by rw [(size_skip f y).1, h.ancestor_size], ?_, ?_⟩
    · simp only [Forest.skip, ha]
      apply h.label.set
      split
      · exact h.label_lt (h.ancestor_lt y a ha)
      · exact h.label_lt hy
    · intro v b hb
      rw [hanc] at hb
      split at hb
      · exact h.ancestor_lt a b hb
      · exact h.ancestor_lt v b hb
    · intro v b hb
      rw [hanc] at hb
      split at hb
      · next hyv =>
        rw [← hyv]
        exact (h.rank_lt a b hb).trans (h.rank_lt y a ha)
      · exact h.rank_lt v b hb

/-- Skipping finds every entry. Where the label stays, it is not written. -/
theorem strict_skip (h : f.Ranked n) (hy : y < n.size + 1) :
    Strict.skip f y = some (f.skip y) := by
  unfold Strict.skip
  rw [h.read_ancestor hy]
  cases ha : f.ancestorOf y with
  | none => simp [Forest.skip, ha]
  | some a =>
    have halt := h.ancestor_lt y a ha
    simp only [Option.bind_eq_bind, Option.bind_some, h.read_label halt, h.read_label hy,
      h.read_semi (h.label_lt halt), h.read_semi (h.label_lt hy), h.read_ancestor halt,
      Strict.write_of_lt (h.ancestor_size ▸ hy), Forest.skip, ha]
    by_cases hlt : f.semiOf (f.labelOf a) < f.semiOf (f.labelOf y)
    · rw [if_pos hlt, if_pos hlt, h.label.write hy, Option.bind_some]
    · have hsame : f.label.setIfInBounds y (f.labelOf y) = f.label := h.label.set_self hy
      rw [if_neg hlt, if_neg hlt, hsame]

/-- Each step on the way up lowers the rank, so fuel beyond the rank is not used. -/
theorem strict_pathAbove (h : f.Ranked n) (hx : x < n.size + 1) (hk : n.rank x ≤ k)
    (hfuel : n.rank x < fuel) :
    Strict.pathAbove f fuel x path = some (f.pathAbove k x path) := by
  induction fuel generalizing k x path with
  | zero => omega
  | succ fuel ih =>
    rw [Strict.pathAbove, h.read_ancestor hx]
    cases ha : f.ancestorOf x with
    | none =>
      cases k with
      | zero => rfl
      | succ k => simp [Forest.pathAbove, ha]
    | some a =>
      have halt := h.ancestor_lt x a ha
      have hdown := h.rank_lt x a ha
      obtain ⟨k, rfl⟩ : ∃ j, k = j + 1 := ⟨k - 1, by omega⟩
      simp only [Option.bind_eq_bind, Option.bind_some, h.read_ancestor halt, Forest.pathAbove, ha]
      cases f.ancestorOf a with
      | none => rfl
      | some b => exact ih halt (by omega) (by omega)

private theorem lt_of_mem_pathAbove (h : f.Ranked n) (hx : x < n.size + 1)
    (hpath : ∀ y ∈ path, y < n.size + 1) (hy : y ∈ f.pathAbove k x path) : y < n.size + 1 := by
  induction k generalizing x path with
  | zero => exact hpath y hy
  | succ k ih =>
    unfold Forest.pathAbove at hy
    split at hy
    · exact hpath y hy
    · next a ha =>
      split at hy
      · exact hpath y hy
      · apply ih (h.ancestor_lt x a ha) ?_ hy
        intro z hz
        rcases List.mem_cons.mp hz with rfl | hz
        · exact hx
        · exact hpath z hz

end Ranked

/-- Every move keeps the ranks. -/
theorem Arises.ranked (hn : n.Ranked) (h : f.Arises n) : f.Ranked n := by
  induction h with
  | isolated => exact ranked_isolated n
  | setSemi _ hs ih => exact ih.setSemi hs
  | link _ pos hw ih => exact ih.link (hn.parent_lt _) (hn.rank_lt _ pos hw)
  | skip _ hy ih => exact ih.skip hy

/-- Compression finds every entry, and both of its loops end. -/
theorem Arises.strict_compress (hn : n.Ranked) (h : f.Arises n) (hv : v < n.size + 1)
    (hfuel : n.size < fuel) :
    Strict.compress fuel f v = some (f.compress v) ∧ (f.compress v).Arises n := by
  have hrank := n.rank_le v
  have hf := h.ranked hn
  have hpath : Strict.pathAbove f fuel v [] = some (f.pathAbove f.ancestor.size v []) :=
    hf.strict_pathAbove hv (by rw [hf.ancestor_size]; omega) (by omega)
  unfold Strict.compress Forest.compress
  rw [hpath]
  apply Strict.foldlM_eq_some ?_ h
  intro g y hy hg
  have hlt := hf.lt_of_mem_pathAbove hv (List.forall_mem_nil _) hy
  exact ⟨(hg.ranked hn).strict_skip hlt, hg.skip hlt⟩

/-- Asking finds every entry, and the answer is a present number. -/
theorem Arises.strict_eval (hn : n.Ranked) (h : f.Arises n) (hv : v < n.size + 1)
    (hfuel : n.size < fuel) :
    Strict.eval fuel f v = some (f.eval v) ∧ (f.eval v).1 < n.size + 1 ∧
      (f.eval v).2.Arises n := by
  unfold Strict.eval Forest.eval
  rw [(h.ranked hn).read_ancestor hv]
  cases f.ancestorOf v with
  | none => exact ⟨rfl, hv, h⟩
  | some a =>
    obtain ⟨heq, hg⟩ := h.strict_compress hn hv hfuel
    have hgr := hg.ranked hn
    refine ⟨?_, hgr.label_lt hv, hg⟩
    simp only [Option.bind_eq_bind, Option.bind_some, heq, hgr.read_label hv]

end Forest
end Dominance
