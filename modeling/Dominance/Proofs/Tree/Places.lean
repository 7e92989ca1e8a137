import Dominance.Proofs.Ancestor
import Dominance.Tree.Basic

/-!
# Places in the forest

Every table of a tree is read back here in terms of the numbering and the sweep that it was made from.
All that the tables need of a numbering is that each block has one position.
-/

namespace Dominance
namespace Numbering

/-- Positions and blocks determine each other. -/
def Indexed (n : Numbering) : Prop := ∀ (b : Block) (i : Nat),
  n.position[b]? = some i ↔ n.order[i]? = some b

/-- The number of a block, or of the virtual entry, which is `none`. -/
def number? (n : Numbering) : Option Block → Option Nat
  | none => some 0
  | some b => n.position[b]?.map (· + 1)

/-- The number `h` is the head of the depth-first tree of `w`. -/
def Head (n : Numbering) (h w : Nat) : Prop := n.Ancestor h w ∧ n.parentOf h = 0

variable {n : Numbering} {u v : Option Block} {b : Block} {i k w : Nat}

private theorem Indexed.nodup (hn : n.Indexed) : n.order.toList.Nodup := by
  rw [List.Nodup, List.pairwise_iff_getElem]
  intro i j hi hj hij he
  rw [Array.length_toList] at hi hj
  rw [Array.getElem_toList, Array.getElem_toList] at he
  have hpi := (hn _ i).mpr (Array.getElem?_eq_getElem hi)
  have hpj := (hn _ j).mpr (Array.getElem?_eq_getElem hj)
  rw [he, hpj] at hpi
  have := Option.some.inj hpi
  omega

/-- Numbers and blocks determine each other. -/
theorem Indexed.number?_some_iff (hn : n.Indexed) :
    n.number? (some b) = some w ↔ n.block? w = some b := by
  cases w with
  | zero => simp [number?, block?]
  | succ i =>
    rw [block?, ← hn b i]
    simp [number?]

/-- Blocks and the virtual entry have different numbers. -/
theorem Indexed.number?_inj (hn : n.Indexed) (hu : n.number? u = some k)
    (hv : n.number? v = some k) : u = v := by
  have hnone : ∀ b, n.number? (some b) ≠ some 0 := by
    intro b hb
    cases hn.number?_some_iff.mp hb
  cases u with
  | none =>
    cases hu
    cases v with
    | none => rfl
    | some b => exact absurd hv (hnone b)
  | some a =>
    cases v with
    | none =>
      cases hv
      exact absurd hu (hnone a)
    | some b => exact (hn.number?_some_iff.mp hu).symm.trans (hn.number?_some_iff.mp hv)

/-- Every number of the forest is that of its block, or of the virtual entry. -/
theorem Indexed.number?_block? (hn : n.Indexed) (hk : k ≤ n.size) :
    n.number? (n.block? k) = some k := by
  cases k with
  | zero => rfl
  | succ i =>
    have hb : n.block? (i + 1) = some n.order[i] := Array.getElem?_eq_getElem hk
    rw [hb, hn.number?_some_iff, hb]

end Numbering

namespace Tree

variable {n : Numbering} {s : Sweep} {roots : List Block} {b c : Block} {i d : Nat}

/-- The first `k` heads are known and the others stand for themselves. -/
private structure HeadsKnown (n : Numbering) (k : Nat) (hs : Array Nat) : Prop where
  size : hs.size = n.size
  known : ∀ i < k, n.Head (hs.getD i 0 + 1) (i + 1)
  fresh : ∀ i, k ≤ i → i < n.size → hs.getD i 0 = i

/-- Going through one more number makes its head known. -/
theorem HeadsKnown.step (hn : n.DepthFirst) {k : Nat} {hs : Array Nat}
    (h : HeadsKnown n k hs) (hk : k < n.size) : HeadsKnown n (k + 1) (headStep n hs k) := by
  unfold headStep
  split
  · next hp =>
    refine ⟨h.size, fun i hi => ?_, fun i hi his => h.fresh i (by omega) his⟩
    by_cases he : i = k
    · rw [he, h.fresh k (Nat.le_refl k) hk]
      exact ⟨.refl, hp⟩
    · exact h.known i (by omega)
  · next p hp =>
    have hlt := hn.parent_lt (k + 1) (Nat.succ_pos k) hk
    have hhead := h.known p (by omega)
    refine ⟨by rw [Array.size_setIfInBounds, h.size], fun i hi => ?_, fun i hi his => ?_⟩
    · rw [Forest.getD_setIfInBounds]
      by_cases he : k = i
      · subst he
        rw [if_pos ⟨rfl, by rw [h.size]; exact hk⟩]
        refine ⟨.up (Nat.succ_pos k) hk ?_, hhead.2⟩
        rw [hp]
        exact hhead.1
      · rw [if_neg (fun hc => he hc.1)]
        exact h.known i (by omega)
    · rw [Forest.getD_setIfInBounds, if_neg (fun hc => by omega)]
      exact h.fresh i (by omega) his

private theorem headsKnown_range (hn : n.DepthFirst) {k : Nat} (hk : k ≤ n.size) :
    HeadsKnown n k ((List.range k).foldl (headStep n) (Array.range n.size)) := by
  induction k with
  | zero =>
    refine ⟨Array.size_range, fun i hi => by omega, fun i _ hi => ?_⟩
    simp [Array.getD_eq_getD_getElem?, hi]
  | succ k ih =>
    rw [List.range_succ, List.foldl_append]
    exact (ih (by omega)).step hn hk

/-- Every position is given the head of its depth-first tree. -/
theorem head_heads (hn : n.DepthFirst) (hi : i < n.size) :
    n.Head ((heads n).getD i 0 + 1) (i + 1) :=
  (headsKnown_range hn (Nat.le_refl n.size)).known i hi

/-- Where the tree of a sweep puts the block `b` at position `i`. -/
def placeAt (roots : List Block) (n : Numbering) (s : Sweep) (b : Block) (i : Nat) : Place :=
  placeOf (heads n) s (roots.contains b) i

/-- A block whose candidate is the virtual entry is a root, or it is shared and hangs below its head. -/
theorem placeAt_of_zero (h : s.idomOf (i + 1) = 0) :
    placeAt roots n s b i = if roots.contains b then .root else .shared ((heads n).getD i 0) := by
  unfold placeAt placeOf
  rw [h]

/-- A block with an immediate dominator hangs below it. -/
theorem placeAt_of_succ (h : s.idomOf (i + 1) = d + 1) : placeAt roots n s b i = .below d := by
  unfold placeAt placeOf
  rw [h]

private def placesOf (roots : List Block) (n : Numbering) (s : Sweep) : List Place :=
  n.order.toList.zipIdx.map fun (b, i) => placeAt roots n s b i

private theorem ofSweep_places (roots : List Block) (n : Numbering) (s : Sweep) :
    (n.order.toList.zipIdx.map fun (b, i) =>
      placeOf (heads n) s ((Std.ExtTreeSet.ofList roots).contains b) i) = placesOf roots n s := by
  simp only [Std.ExtTreeSet.contains_ofList]
  rfl

private theorem getElem?_placesOf :
    (placesOf roots n s)[i]? = n.order[i]?.map fun b => placeAt roots n s b i := by
  simp [placesOf, List.getElem?_zipIdx, Function.comp_def]

private theorem getElem?_hang (order : Array Block) (m : Std.ExtTreeMap Block Block)
    (x : Block × Place) :
    (hang order m x)[c]? =
      if x.1 = c then (x.2.above?.bind (order[·]?)).or m[c]? else m[c]? := by
  unfold hang
  split
  · next h => simp [h]
  · next d h =>
    rw [Std.ExtTreeMap.getElem?_insert, h]
    simp only [Std.LawfulEqOrd.compare_eq_iff_eq, Option.some_or]

private theorem getElem?_foldl_hang_of_not_mem {order : Array Block} {xs : List (Block × Place)}
    {m : Std.ExtTreeMap Block Block} (hb : b ∉ xs.map Prod.fst) :
    (xs.foldl (hang order) m)[b]? = m[b]? := by
  induction xs generalizing m with
  | nil => rfl
  | cons x xs ih =>
    rw [List.map_cons, List.mem_cons, not_or] at hb
    rw [List.foldl_cons, ih hb.2, getElem?_hang, if_neg (Ne.symm hb.1)]

private theorem getElem?_foldl_hang {order : Array Block} {xs : List (Block × Place)} {p : Place}
    {m : Std.ExtTreeMap Block Block} (hd : (xs.map Prod.fst).Nodup) (hx : (b, p) ∈ xs)
    (hm : m[b]? = none) : (xs.foldl (hang order) m)[b]? = p.above?.bind (order[·]?) := by
  induction xs generalizing m with
  | nil => cases hx
  | cons x xs ih =>
    rw [List.map_cons, List.nodup_cons] at hd
    rw [List.foldl_cons]
    rcases List.mem_cons.mp hx with rfl | hx
    · rw [getElem?_foldl_hang_of_not_mem hd.1, getElem?_hang, if_pos rfl, hm, Option.or_none]
    · apply ih hd.2 hx
      have hne : x.1 ≠ b := by
        rintro rfl
        exact hd.1 (List.mem_map.mpr ⟨_, hx, rfl⟩)
      rw [getElem?_hang, if_neg hne, hm]

/-- A block that hangs somewhere is not taken down again. -/
private theorem isSome_foldl_hang {order : Array Block} {xs : List (Block × Place)}
    {m : Std.ExtTreeMap Block Block}
    (h : m[b]?.isSome = true ∨ ∃ p, (b, p) ∈ xs ∧ (p.above?.bind (order[·]?)).isSome = true) :
    (xs.foldl (hang order) m)[b]?.isSome = true := by
  induction xs generalizing m with
  | nil =>
    rcases h with h | ⟨p, hp, _⟩
    · exact h
    · cases hp
  | cons x xs ih =>
    rw [List.foldl_cons]
    apply ih
    rw [getElem?_hang]
    rcases h with h | ⟨p, hp, habove⟩
    · left
      split
      · rw [Option.isSome_or, h, Bool.or_true]
      · exact h
    · rcases List.mem_cons.mp hp with rfl | hp
      · left
        rw [if_pos rfl, Option.isSome_or, habove, Bool.true_or]
      · exact Or.inr ⟨p, hp, habove⟩

private theorem map_fst_zip_placesOf :
    (n.order.toList.zip (placesOf roots n s)).map Prod.fst = n.order.toList :=
  List.map_fst_zip (by simp [placesOf])

/-- The immediate dominator of a block is the block above its place. -/
theorem idom?_ofSweep (hn : n.Indexed) (hb : n.order[i]? = some b) :
    (ofSweep roots n s).idom? b = (placeAt roots n s b i).above?.bind (n.order[·]?) := by
  unfold idom? ofSweep
  simp only [ofSweep_places]
  apply getElem?_foldl_hang
  · rw [map_fst_zip_placesOf]
    exact hn.nodup
  · apply List.mem_of_getElem? (i := i)
    rw [List.getElem?_zip_eq_some, Array.getElem?_toList, getElem?_placesOf, hb]
    exact ⟨rfl, rfl⟩
  · exact Std.ExtTreeMap.getElem?_empty

/-- A block with a place above hangs somewhere, be it visited once or more often. -/
theorem idom?_isSome_ofSweep (hb : n.order[i]? = some b)
    (hd : (placeAt roots n s b i).above? = some d) (hlt : d < n.size) :
    ((ofSweep roots n s).idom? b).isSome = true := by
  unfold idom? ofSweep
  simp only [ofSweep_places]
  apply isSome_foldl_hang
  refine Or.inr ⟨placeAt roots n s b i, ?_, ?_⟩
  · apply List.mem_of_getElem? (i := i)
    rw [List.getElem?_zip_eq_some, Array.getElem?_toList, getElem?_placesOf, hb]
    exact ⟨rfl, rfl⟩
  · rw [hd, Option.bind_some, Array.getElem?_eq_getElem hlt]
    rfl

/-- A block that was not visited has no immediate dominator. -/
theorem idom?_ofSweep_of_not_mem (hb : b ∉ n.order.toList) :
    (ofSweep roots n s).idom? b = none := by
  unfold idom? ofSweep
  simp only [ofSweep_places]
  rw [getElem?_foldl_hang_of_not_mem (by rwa [map_fst_zip_placesOf])]
  exact Std.ExtTreeMap.getElem?_empty

private theorem shared_ofSweep (hb : n.order[i]? = some b) :
    (ofSweep roots n s).shared.getD i false = (placeAt roots n s b i).isShared := by
  unfold ofSweep
  simp only [ofSweep_places]
  simp [Array.getD_eq_getD_getElem?, getElem?_placesOf, hb]

/-- A block is shared if its place is that of a shared block. -/
theorem isShared_ofSweep (hn : n.Indexed) (hb : n.order[i]? = some b) :
    (ofSweep roots n s).isShared b = (placeAt roots n s b i).isShared := by
  have hp : (ofSweep roots n s).position? b = some i := (hn b i).mpr hb
  unfold isShared
  rw [hp]
  exact shared_ofSweep hb

private theorem parent_ofSweep (hi : i < n.size) :
    ((ofSweep roots n s).parent.getD i none).bind (n.order[·]?) = n.block? (n.parentOf (i + 1)) := by
  cases h : n.parentOf (i + 1) with
  | zero => simp [ofSweep, Array.getD_eq_getD_getElem?, Numbering.block?, hi, h]
  | succ p => simp [ofSweep, Array.getD_eq_getD_getElem?, Numbering.block?, hi, h]

/-- The parent of a block is the block of its parent number. -/
theorem parent?_ofSweep (hn : n.Indexed) (hb : n.order[i]? = some b) :
    (ofSweep roots n s).parent? b = n.block? (n.parentOf (i + 1)) := by
  have hp : (ofSweep roots n s).position? b = some i := (hn b i).mpr hb
  rw [← parent_ofSweep (Array.getElem?_eq_some_iff.mp hb).1]
  unfold parent?
  rw [hp]
  rfl

/-- The semidominator of a position, as the tree stores it. -/
theorem semi_ofSweep (hb : n.order[i]? = some b) :
    (ofSweep roots n s).semi[i]? = some (semiPosition (heads n) s (roots.contains b) i) := by
  simp [ofSweep, List.getElem?_zipIdx, hb, Std.ExtTreeSet.contains_ofList]

/-- The roots of a tree are the given ones that were visited. -/
theorem mem_roots_ofSweep :
    b ∈ (ofSweep roots n s).roots ↔ b ∈ roots ∧ b ∈ n.position := by
  simp [ofSweep, Std.ExtTreeMap.contains_iff_mem]

/-- Adopting a child makes room for no new parent. -/
theorem size_adopt (ch : Array (Array Nat)) (x : Place × Nat) :
    (adopt ch x).size = ch.size := by
  unfold adopt
  split
  · rfl
  · exact Array.size_modify

private theorem toList_getD_adopt (ch : Array (Array Nat)) (x : Place × Nat) (hd : d < ch.size) :
    ((adopt ch x).getD d #[]).toList =
      (ch.getD d #[]).toList ++ if x.1.above? = some d then [x.2] else [] := by
  unfold adopt
  split
  · next h => simp [h]
  · next e h =>
    rw [h, Array.getD_eq_getD_getElem?, Array.getD_eq_getD_getElem?, Array.getElem?_modify,
      Array.getElem?_eq_getElem hd]
    by_cases he : e = d
    · simp [he]
    · simp [he]

private theorem toList_getD_foldl_adopt {xs : List (Place × Nat)} {ch : Array (Array Nat)}
    (hd : d < ch.size) :
    ((xs.foldl adopt ch).getD d #[]).toList =
      (ch.getD d #[]).toList ++ (xs.filter fun x => x.1.above? = some d).map Prod.snd := by
  induction xs generalizing ch with
  | nil => simp
  | cons x xs ih =>
    rw [List.foldl_cons, ih (by rwa [size_adopt]), toList_getD_adopt ch x hd, List.filter_cons]
    by_cases hx : x.1.above? = some d
    · simp [hx]
    · simp [hx]

private theorem size_foldl_adopt (xs : List (Place × Nat)) (ch : Array (Array Nat)) :
    (xs.foldl adopt ch).size = ch.size := by
  induction xs generalizing ch with
  | nil => rfl
  | cons x xs ih => rw [List.foldl_cons, ih, size_adopt]

/-- Every position has a list of children. -/
theorem size_children_ofSweep : (ofSweep roots n s).children.size = n.size := by
  unfold ofSweep
  rw [size_foldl_adopt, Array.size_replicate]

private theorem toList_children_ofSweep (hd : d < n.size) :
    ((ofSweep roots n s).children.getD d #[]).toList =
      ((placesOf roots n s).zipIdx.filter fun x => x.1.above? = some d).map Prod.snd := by
  unfold ofSweep
  simp only [ofSweep_places]
  rw [toList_getD_foldl_adopt (by rwa [Array.size_replicate])]
  simp [Array.getD_eq_getD_getElem?, hd]

/-- The children of a position are the positions with a place below it. -/
theorem mem_children_ofSweep (hd : d < n.size) :
    i ∈ ((ofSweep roots n s).children.getD d #[]).toList ↔
      ∃ b, n.order[i]? = some b ∧ (placeAt roots n s b i).above? = some d := by
  rw [toList_children_ofSweep hd]
  simp only [List.mem_map, List.mem_filter, List.mem_zipIdx_iff_getElem?, getElem?_placesOf,
    Option.map_eq_some_iff, decide_eq_true_eq]
  constructor
  · rintro ⟨x, ⟨⟨b, hb, hx⟩, hp⟩, rfl⟩
    rw [← hx] at hp
    exact ⟨b, hb, hp⟩
  · rintro ⟨b, hb, hp⟩
    exact ⟨⟨_, i⟩, ⟨⟨b, hb, rfl⟩, hp⟩, rfl⟩

/-- Children are listed ascending. -/
theorem pairwise_children_ofSweep (hd : d < n.size) :
    ((ofSweep roots n s).children.getD d #[]).toList.Pairwise (· < ·) := by
  rw [toList_children_ofSweep hd]
  have hsub := (List.filter_sublist (p := fun x : Place × Nat => x.1.above? = some d)
    (l := (placesOf roots n s).zipIdx)).map Prod.snd
  rw [List.zipIdx_map_snd] at hsub
  exact List.Pairwise.sublist hsub List.pairwise_lt_range'

end Tree
end Dominance
