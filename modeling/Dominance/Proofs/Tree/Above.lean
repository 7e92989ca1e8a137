import Mathlib.Data.List.Chain
import Dominance.Proofs.Tree.Exact

/-!
# The way up

From every reached block the immediate dominators lead up to a root, position by position and without
repetition, so the bound on the length of a way up never cuts one off. Being above is the order of the
tree; it extends dominance by the roots that stand in for missing dominators.
-/

namespace Dominance
namespace Tree

/-- The list of blocks met on the way up from a block to one that hangs nowhere. -/
inductive WayUp (t : Tree) : Block → List Block → Prop where
  | top {b : Block} (h : t.idom? b = none) : WayUp t b [b]
  | up {b d : Block} {l : List Block} (h : t.idom? b = some d) (w : WayUp t d l) : WayUp t b (b :: l)

/-- The block `a` is met on the way up from the given block. -/
inductive Above (t : Tree) (a : Block) : Block → Prop where
  | refl : Above t a a
  | up {b d : Block} (h : t.idom? b = some d) (h' : Above t a d) : Above t a b

variable {t : Tree} {f : Flow} {roots : List Block} {a b c d : Block} {l : List Block}

/-- A way up holds what is above its first block. -/
theorem WayUp.mem_iff (w : t.WayUp b l) : a ∈ l ↔ t.Above a b := by
  induction w with
  | @top b h =>
    rw [List.mem_singleton]
    constructor
    · rintro rfl
      exact .refl
    · intro h'
      cases h' with
      | refl => rfl
      | up hd _ =>
        rw [h] at hd
        cases hd
  | @up b d l h w ih =>
    rw [List.mem_cons, ih]
    constructor
    · rintro (rfl | h')
      · exact .refl
      · exact .up h h'
    · intro h'
      cases h' with
      | refl => exact Or.inl rfl
      | up hd h' =>
        rw [h] at hd
        cases hd
        exact Or.inr h'

/-- A way up begins at its block. -/
theorem WayUp.head? (w : t.WayUp b l) : l.head? = some b := by
  cases w <;> rfl

/-- On a way up each block is followed by its immediate dominator. -/
theorem WayUp.isChain (w : t.WayUp b l) : l.IsChain fun c d => t.idom? c = some d := by
  induction w with
  | top => exact .singleton _
  | up h w ih =>
    apply ih.cons
    intro c hc
    rw [w.head?] at hc
    cases hc
    exact h

/-- A way up ends at a block that hangs nowhere. -/
theorem WayUp.getLast? (w : t.WayUp b l) : ∃ r, l.getLast? = some r ∧ t.idom? r = none := by
  induction w with
  | @top b h => exact ⟨b, rfl, h⟩
  | @up b d l h w ih =>
    rcases ih with ⟨r, hr, htop⟩
    refine ⟨r, ?_, htop⟩
    rw [List.getLast?_cons, hr]
    rfl

/-- With fuel enough for a way up, climbing gives it. -/
theorem WayUp.climb (w : t.WayUp b l) {fuel : Nat} (hl : l.length ≤ fuel) : t.climb fuel b = l := by
  induction w generalizing fuel with
  | top h =>
    cases fuel with
    | zero => cases hl
    | succ fuel => simp [Tree.climb, h]
  | up h w ih =>
    cases fuel with
    | zero => cases hl
    | succ fuel =>
      simp only [Tree.climb, h]
      rw [ih (Nat.le_of_succ_le_succ hl)]

/-- All blocks of a way up but the last one hang below something. -/
theorem WayUp.idom_isSome (w : t.WayUp b l) : ∀ c ∈ l.dropLast, (t.idom? c).isSome = true := by
  induction w with
  | top => exact List.forall_mem_nil _
  | @up b d l h w ih =>
    have hne : l ≠ [] := by
      rintro rfl
      cases w
    rw [List.dropLast_cons_of_ne_nil hne]
    intro c hc
    rcases List.mem_cons.mp hc with rfl | hc
    · rw [h]
      rfl
    · exact ih c hc

/-- There is one way up from a block. -/
theorem WayUp.unique (w : t.WayUp b l) {l' : List Block} (w' : t.WayUp b l') : l = l' := by
  induction w generalizing l' with
  | top h =>
    cases w' with
    | top => rfl
    | up h' _ =>
      rw [h] at h'
      cases h'
  | up h _ ih =>
    cases w' with
    | top h' =>
      rw [h] at h'
      cases h'
    | up h' w' =>
      rw [h] at h'
      cases h'
      rw [ih w']

/-- From every block on a way up there is one that is no longer. -/
theorem WayUp.of_mem (w : t.WayUp b l) (hc : c ∈ l) : ∃ l', t.WayUp c l' ∧ l'.length ≤ l.length := by
  induction w with
  | @top b h =>
    rw [List.mem_singleton.mp hc]
    exact ⟨[b], .top h, Nat.le_refl _⟩
  | @up b d l h w ih =>
    rcases List.mem_cons.mp hc with rfl | hc
    · exact ⟨c :: l, .up h w, Nat.le_refl _⟩
    · rcases ih hc with ⟨l', w', hl⟩
      exact ⟨l', w', Nat.le_succ_of_le hl⟩

/-- A way up has no repetitions: from a block met twice there would be two ways up. -/
theorem WayUp.nodup (w : t.WayUp b l) : l.Nodup := by
  induction w with
  | top => exact List.nodup_singleton _
  | up h w ih =>
    rw [List.nodup_cons]
    refine ⟨?_, ih⟩
    intro hb
    rcases w.of_mem hb with ⟨l', w', hl⟩
    rw [← (WayUp.up h w).unique w', List.length_cons] at hl
    omega

/-- A way up fits into the bound. -/
theorem WayUp.length_le (w : t.WayUp b l) : l.length ≤ t.heightBound := by
  have hsub : l.dropLast ⊆ t.idom.keys := by
    intro c hc
    rw [Std.ExtTreeMap.mem_keys, Std.ExtTreeMap.mem_iff_isSome_getElem?]
    exact w.idom_isSome c hc
  have hnodup : l.dropLast.Nodup := w.nodup.sublist (List.dropLast_sublist l)
  have hle := hnodup.length_le_of_subset hsub
  rw [List.length_dropLast, Std.ExtTreeMap.length_keys] at hle
  unfold heightBound
  omega

/-- What is above a block above is above. -/
theorem Above.trans (h : t.Above a b) (h' : t.Above b c) : t.Above a c := by
  induction h' with
  | refl => exact h
  | up hd _ ih => exact .up hd ih

/-- What is above a block and another one is above its immediate dominator. -/
theorem Above.of_idom (h : t.Above a b) (hne : a ≠ b) (hd : t.idom? b = some d) : t.Above a d := by
  cases h with
  | refl => exact absurd rfl hne
  | up hd' h =>
    rw [hd] at hd'
    cases hd'
    exact h

/-- What is above a block is ordered by being above. -/
theorem Above.total (h : t.Above a b) (h' : t.Above c b) : t.Above a c ∨ t.Above c a := by
  induction h with
  | refl => exact Or.inr h'
  | up hd h ih =>
    cases h' with
    | refl => exact Or.inl (.up hd h)
    | up hd' h' =>
      rw [hd] at hd'
      cases hd'
      exact ih h'

/-- A block with something above it either is that or lies below what hangs there. -/
theorem Above.child (h : t.Above a b) (hne : a ≠ b) : ∃ c, t.idom? c = some a ∧ t.Above c b := by
  induction h with
  | refl => exact absurd rfl hne
  | @up b d hd h ih =>
    by_cases had : a = d
    · subst had
      exact ⟨b, hd, .refl⟩
    · rcases ih had with ⟨c, hc, hcd⟩
      exact ⟨c, hc, .up hd hcd⟩

/-- A block of the tree has a position. -/
theorem exists_position_of_contains (h : t.contains b = true) : ∃ i, t.position? b = some i := by
  rwa [contains, Std.ExtTreeMap.contains_eq_isSome_getElem?, Option.isSome_iff_exists] at h

namespace Exact

variable (ht : t.Exact f roots)
include ht

/-- A reached block has a position. -/
theorem exists_position (hb : f.Reaches roots b) : ∃ i, t.blockAt? i = some b := by
  rcases exists_position_of_contains ((ht.contains_iff b).mpr hb) with ⟨i, hi⟩
  exact ⟨i, (ht.position?_iff b i).mp hi⟩

/-- A block with a position is reached. -/
theorem reaches_of_blockAt? {i : Nat} (h : t.blockAt? i = some b) : f.Reaches roots b := by
  rw [← ht.contains_iff, contains, Std.ExtTreeMap.contains_eq_isSome_getElem?]
  have hp : t.position[b]? = some i := (ht.position?_iff b i).mpr h
  rw [hp]
  rfl

/-- A block has one position. -/
theorem blockAt?_inj {i j : Nat} (hi : t.blockAt? i = some b) (hj : t.blockAt? j = some b) :
    i = j := by
  have hp := (ht.position?_iff b i).mpr hi
  rw [(ht.position?_iff b j).mpr hj] at hp
  exact (Option.some.inj hp).symm

/-- Immediate dominators are reached. -/
theorem reaches_idom (h : t.idom? b = some d) : f.Reaches roots d := by
  rcases ht.exists_position (ht.reaches_of_idom? b d h) with ⟨i, hi⟩
  rcases ht.idom_before b d i hi h with ⟨j, hj, _⟩
  exact ht.reaches_of_blockAt? hj

/-- What is proved of a block from the same about its immediate dominator holds of all reached
blocks. -/
theorem induction_up {P : Block → Prop}
    (step : ∀ b, f.Reaches roots b → (∀ d, t.idom? b = some d → P d) → P b)
    (hb : f.Reaches roots b) : P b := by
  rcases ht.exists_position hb with ⟨i, hi⟩
  induction i using Nat.strongRecOn generalizing b with
  | ind i ih =>
    apply step b hb
    intro d hd
    rcases ht.idom_before b d i hi hd with ⟨j, hj, hji⟩
    exact ih j hji (ht.reaches_idom hd) hj

/-- A block that hangs nowhere is a root and not shared. -/
theorem placed_top (hb : f.Reaches roots b) (h : t.idom? b = none) :
    b ∈ f.validRoots roots ∧ t.isShared b = false := by
  cases ht.placed b hb with
  | root mem _ plain => exact ⟨mem, plain⟩
  | shared r _ _ _ idom _ _ =>
    rw [h] at idom
    cases idom
  | below d _ idom _ _ =>
    rw [h] at idom
    cases idom

/-- A block that hangs somewhere is shared and hangs below a root, or hangs below its immediate
dominator. -/
theorem placed_up (h : t.idom? b = some d) :
    (t.isShared b = true ∧ d ∈ f.validRoots roots ∧ ∀ a, f.Dominates roots a b → a = b) ∨
      (t.isShared b = false ∧ f.ImmediatelyDominates roots d b) := by
  cases ht.placed b (ht.reaches_of_idom? b d h) with
  | root _ free _ =>
    rw [h] at free
    cases free
  | shared r _ mem _ idom shared alone =>
    rw [h] at idom
    cases idom
    exact Or.inl ⟨shared, mem, alone⟩
  | below c _ idom plain nearest =>
    rw [h] at idom
    cases idom
    exact Or.inr ⟨plain, nearest⟩

/-- Roots hang nowhere. -/
theorem idom?_root (hb : b ∈ f.validRoots roots) : t.idom? b = none := by
  cases ht.placed b (f.reaches_of_mem hb) with
  | root _ free _ => exact free
  | shared _ other _ _ _ _ _ => exact absurd (List.mem_filter.mp hb).1 other
  | below _ other _ _ _ => exact absurd (List.mem_filter.mp hb).1 other

/-- Nothing else is above a root. -/
theorem eq_of_above_root (hb : b ∈ f.validRoots roots) (h : t.Above a b) : a = b := by
  cases h with
  | refl => rfl
  | up hd _ =>
    rw [ht.idom?_root hb] at hd
    cases hd

/-- Shared blocks are reached. -/
theorem reaches_of_isShared (h : t.isShared b = true) : f.Reaches roots b := by
  unfold isShared at h
  split at h
  · cases h
  · next i hi => exact ht.reaches_of_blockAt? ((ht.position?_iff b i).mp hi)

/-- A shared block is no root, it hangs below one, and nothing else dominates it. -/
theorem placed_shared (h : t.isShared b = true) :
    b ∉ roots ∧ (∃ r ∈ f.validRoots roots, t.idom? b = some r) ∧
      ∀ a, f.Dominates roots a b → a = b := by
  cases ht.placed b (ht.reaches_of_isShared h) with
  | root _ _ plain =>
    rw [h] at plain
    cases plain
  | shared r other mem _ idom _ alone => exact ⟨other, ⟨r, mem, idom⟩, alone⟩
  | below _ _ _ plain _ =>
    rw [h] at plain
    cases plain

/-- Every reached block has a way up. -/
theorem exists_wayUp (hb : f.Reaches roots b) : ∃ l, t.WayUp b l := by
  apply ht.induction_up ?_ hb
  intro b _ ih
  cases hd : t.idom? b with
  | none => exact ⟨[b], .top hd⟩
  | some d =>
    rcases ih d hd with ⟨l, w⟩
    exact ⟨b :: l, .up hd w⟩

/-- What is above a block is not numbered after it. -/
theorem position_of_above (h : t.Above a b) {i : Nat} (hi : t.blockAt? i = some b) :
    ∃ j, t.blockAt? j = some a ∧ j ≤ i := by
  induction h generalizing i with
  | refl => exact ⟨i, hi, Nat.le_refl i⟩
  | @up b d hd _ ih =>
    rcases ht.idom_before b d i hi hd with ⟨k, hk, hki⟩
    rcases ih hk with ⟨j, hj, hjk⟩
    exact ⟨j, hj, by omega⟩

/-- What is above a reached block is reached. -/
theorem reaches_above (h : t.Above a b) (hb : f.Reaches roots b) : f.Reaches roots a := by
  rcases ht.exists_position hb with ⟨i, hi⟩
  rcases ht.position_of_above h hi with ⟨j, hj, _⟩
  exact ht.reaches_of_blockAt? hj

/-- No block is above its own immediate dominator. -/
theorem not_above_idom (h : t.idom? b = some d) : ¬t.Above b d := by
  intro hbd
  rcases ht.exists_position (ht.reaches_of_idom? b d h) with ⟨i, hi⟩
  rcases ht.idom_before b d i hi h with ⟨j, hj, hji⟩
  rcases ht.position_of_above hbd hj with ⟨k, hk, hkj⟩
  have := ht.blockAt?_inj hi hk
  omega

/-- Blocks that are above each other are equal. -/
theorem above_antisymm (h : t.Above a b) (h' : t.Above b a) : a = b := by
  cases h with
  | refl => rfl
  | up hd h => exact absurd (h'.trans h) (ht.not_above_idom hd)

/-- The dominators that a tree lists are the whole way up. -/
theorem wayUp_dominators (hb : f.Reaches roots b) : t.WayUp b (t.dominators b) := by
  rcases ht.exists_wayUp hb with ⟨l, w⟩
  unfold dominators
  rw [if_pos ((ht.contains_iff b).mpr hb), w.climb w.length_le]
  exact w

/-- A block that is not reached has an empty chain. -/
theorem dominators_of_not_reaches (hb : ¬f.Reaches roots b) : t.dominators b = [] :=
  if_neg fun hc => hb ((ht.contains_iff b).mp hc)

/-- The dominance that a tree answers is its order on reached blocks. -/
theorem dominates_iff_above : t.dominates a b = true ↔ f.Reaches roots b ∧ t.Above a b := by
  rw [dominates_eq, Bool.and_eq_true, List.contains_iff_mem, ht.contains_iff]
  constructor
  · rintro ⟨_, hmem⟩
    have hb : f.Reaches roots b := by
      apply Classical.byContradiction
      intro hb
      rw [ht.dominators_of_not_reaches hb] at hmem
      cases hmem
    exact ⟨hb, (ht.wayUp_dominators hb).mem_iff.mp hmem⟩
  · rintro ⟨hb, h⟩
    exact ⟨ht.reaches_above h hb, (ht.wayUp_dominators hb).mem_iff.mpr h⟩

/-- Dominators are above. -/
theorem above_of_dominates (hb : f.Reaches roots b) (h : f.Dominates roots a b) : t.Above a b := by
  revert h
  apply ht.induction_up ?_ hb
  intro b hb ih h
  by_cases hab : a = b
  · subst hab
    exact .refl
  · cases hd : t.idom? b with
    | none => exact absurd (Flow.eq_of_dominates_root (ht.placed_top hb hd).1 h) hab
    | some d =>
      rcases ht.placed_up hd with ⟨_, _, alone⟩ | ⟨_, himm⟩
      · exact absurd (alone a h) hab
      · exact .up hd (ih d hd ((himm.2 a).mpr ⟨hab, h⟩))

end Exact
end Tree
end Dominance
