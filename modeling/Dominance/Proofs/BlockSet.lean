import Mathlib.Data.List.Basic
import Dominance.Proofs.Strict.Forest
import Dominance.Strict.BlockSet

/-!
# Sets of blocks as finite sets

After any insertions exactly the bits of the inserted blocks below the capacity are set, and there are
exactly as many words as the capacity needs. Everything that is observed of a set follows from this one
fact about its bits, and so does that sets with the same members are stored alike: the unused bits of
the last word stay zero.
-/

namespace Dominance
namespace BlockSet

/-- The set of a capacity after inserting blocks in turn. -/
def inserted (capacity : Nat) (blocks : List Block) : BlockSet := blocks.foldl insert (empty capacity)

/-- The storage fits the capacity, and the bits that are set are those of the given blocks below it. -/
structure Holds (s : BlockSet) (blocks : List Block) : Prop where
  sized : s.Sized
  bit : ∀ i, s.bit i = true ↔ i < s.capacity ∧ ⟨i⟩ ∈ blocks

variable {s t : BlockSet} {blocks others : List Block} {b : Block} {i n : Nat}

/-! ## What the bits say -/

/-- No bit of an empty set is set. -/
theorem holds_empty (n : Nat) : (empty n).Holds [] where
  sized := sized_empty n
  bit i := by simp

/-- Insertion sets the bit of a block below the capacity and no other. -/
theorem Holds.insert (h : s.Holds blocks) (b : Block) : (s.insert b).Holds (blocks ++ [b]) where
  sized := sized_insert h.sized b
  bit i := by
    rw [capacity_insert, List.mem_append, List.mem_singleton]
    by_cases hb : b.index < s.capacity
    · have he : i = b.index ↔ (⟨i⟩ : Block) = b := by
        cases b
        simp
      rw [bit_insert h.sized hb, Bool.or_eq_true, h.bit, decide_eq_true_eq, he]
      constructor
      · rintro (⟨hi, hmem⟩ | hib)
        · exact ⟨hi, .inl hmem⟩
        · exact ⟨by rw [he.mpr hib]; exact hb, .inr hib⟩
      · rintro ⟨hi, hmem | hib⟩
        · exact .inl ⟨hi, hmem⟩
        · exact .inr hib
    · have hout : s.insert b = s := by
        unfold BlockSet.insert
        rw [if_neg hb]
      rw [hout, h.bit]
      constructor
      · rintro ⟨hi, hmem⟩
        exact ⟨hi, .inl hmem⟩
      · rintro ⟨hi, hmem | rfl⟩
        · exact ⟨hi, hmem⟩
        · exact absurd hi hb

private theorem inserted_concat (n : Nat) (blocks : List Block) (b : Block) :
    inserted n (blocks ++ [b]) = (inserted n blocks).insert b := by
  simp [inserted]

/-- No insertion changes the capacity. -/
@[simp] theorem capacity_inserted (n : Nat) (blocks : List Block) :
    (inserted n blocks).capacity = n := by
  induction blocks using List.reverseRecOn with
  | nil => rfl
  | append_singleton blocks b ih => rw [inserted_concat, capacity_insert, ih]

/-- After any insertions the bits of the inserted blocks are set, and no others. -/
theorem holds_inserted (n : Nat) (blocks : List Block) : (inserted n blocks).Holds blocks := by
  induction blocks using List.reverseRecOn with
  | nil => exact holds_empty n
  | append_singleton blocks b ih =>
    rw [inserted_concat]
    exact ih.insert b

namespace Holds

/-- A bit is set exactly if its block is a member. -/
theorem contains_eq_bit (h : s.Holds blocks) (b : Block) : s.contains b = s.bit b.index := by
  unfold contains
  cases hb : s.bit b.index with
  | false => rw [Bool.and_false]
  | true => simp [((h.bit b.index).mp hb).1]

private theorem contains_iff (h : s.Holds blocks) (b : Block) :
    s.contains b = true ↔ b.index < s.capacity ∧ b ∈ blocks := by
  rw [h.contains_eq_bit, h.bit]

/-- No bit past the capacity is set. -/
theorem bit_of_le (h : s.Holds blocks) (hi : s.capacity ≤ i) : s.bit i = false := by
  apply Bool.eq_false_iff.mpr
  intro hbit
  have := ((h.bit i).mp hbit).1
  omega

private theorem accepts_iff (h : s.Holds blocks) (b : Block) :
    s.accepts b = true ↔ b.index < s.capacity ∧ s.contains b = false := by
  rw [accepts, h.contains_eq_bit, Bool.and_eq_true, decide_eq_true_eq, Bool.not_eq_true']

/-- Sets of the same capacity with the same members are stored alike. -/
theorem ext (hs : s.Holds blocks) (ht : t.Holds others) (hc : s.capacity = t.capacity)
    (h : ∀ b, s.contains b = t.contains b) : s = t := by
  have hsize : s.words.size = t.words.size := by rw [hs.sized, ht.sized, hc]
  have hbit : ∀ i, s.bit i = t.bit i := by
    intro i
    rw [← hs.contains_eq_bit ⟨i⟩, ← ht.contains_eq_bit ⟨i⟩, h]
  have hwords : s.words = t.words := by
    apply Array.ext hsize
    intro k hks hkt
    apply BitVec.eq_of_getLsbD_eq
    intro j hj
    have hk : (64 * k + j) / 64 = k := by omega
    have hm : (64 * k + j) % 64 = j := by omega
    have := hbit (64 * k + j)
    simpa [BlockSet.bit, hk, hm, Array.getD_eq_getD_getElem?, hks, hkt] using this
  cases s
  cases t
  cases hc
  cases hwords
  rfl

end Holds

/-! ## Words and masks -/

/-- A mask meets a word exactly if the bit is set. -/
theorem and_mask_eq_zero (word : BitVec 64) (i : Nat) :
    (word &&& Strict.mask i == 0#64) = !word.getLsbD (i % 64) := by
  have hi : i % 64 < 64 := Nat.mod_lt i (by decide)
  rw [Strict.mask, ← BitVec.twoPow_eq, BitVec.and_twoPow]
  cases word.getLsbD (i % 64) with
  | false => rfl
  | true =>
    have hne : BitVec.twoPow 64 (i % 64) ≠ 0#64 := by
      intro hz
      have := congrArg (·.getLsbD (i % 64)) hz
      simp [hi] at this
    exact beq_eq_false_iff_ne.mpr hne

/-- A block below the capacity finds its word. -/
theorem Sized.getElem?_word (h : s.Sized) (hb : b.index < s.capacity) :
    s.words[b.index / 64]? = some (s.words.getD (b.index / 64) 0) :=
  Strict.getElem?_of_lt (word_lt h hb) 0

private theorem Sized.strict_contains (h : s.Sized) (b : Block) :
    Strict.containsBlock s b = some (s.contains b) := by
  unfold Strict.containsBlock contains
  by_cases hb : b.index < s.capacity
  · rw [if_pos hb, h.getElem?_word hb]
    simp [hb, bne, and_mask_eq_zero, bit]
  · simp [hb]

private theorem Sized.strict_insert (h : s.Sized) (b : Block) :
    Strict.insertBlock s b = some (s.accepts b, s.insert b) := by
  unfold Strict.insertBlock accepts insert
  by_cases hb : b.index < s.capacity
  · have hw := word_lt h hb
    have hmodify : s.words.modify (b.index / 64) (· ||| BitVec.twoPow 64 (b.index % 64)) =
        s.words.setIfInBounds (b.index / 64)
          (s.words.getD (b.index / 64) 0 ||| Strict.mask b.index) := by
      apply Array.ext_getElem?
      intro k
      rw [Array.getElem?_modify, Array.getElem?_setIfInBounds, Strict.mask, BitVec.twoPow_eq]
      split
      · next hk => simp [← hk, hw]
      · rfl
    rw [if_neg (Nat.not_le.mpr hb), if_pos hb, h.getElem?_word hb, hmodify]
    simp [Strict.write_of_lt hw, hb, and_mask_eq_zero, bit]
  · simp [hb, Nat.le_of_not_lt hb]

/-! ## Listing and counting -/

private theorem pairwise_wordBits (word : BitVec 64) : (wordBits word).Pairwise (· < ·) := by
  unfold wordBits
  split
  · exact .nil
  · exact List.pairwise_lt_range.filter _

/-- The members are listed in ascending order: within a word by their bits, and the words in turn. -/
theorem pairwise_toList (s : BlockSet) : s.toList.Pairwise fun a b => a.index < b.index := by
  rw [toList_eq, List.pairwise_flatMap]
  constructor
  · intro k _
    rw [wordMembers, List.pairwise_map]
    exact (pairwise_wordBits _).imp fun h => by simpa using h
  · apply List.pairwise_lt_range.imp
    intro j k hjk a ha b hb
    have hj := (mem_wordMembers.mp ha).2
    have hk := (mem_wordMembers.mp hb).2
    omega

/-- A word has as many bits listed as it has ones. -/
theorem length_wordBits (word : BitVec 64) : (wordBits word).length = word.cpop.toNat := by
  have hrec : ∀ k, word.cpopNatRec k 0 = ((List.range k).filter (word.getLsbD ·)).length := by
    intro k
    induction k with
    | zero => rfl
    | succ k ih =>
      rw [BitVec.cpopNatRec_succ, BitVec.cpopNatRec_add, ih, List.range_succ, List.filter_append,
        List.length_append]
      cases hk : word.getLsbD k <;> simp [hk]
  unfold wordBits
  split
  · next hz => simp [hz]
  · rw [BitVec.toNat_cpop, hrec]

/-- Counting word by word gives the number of members listed. -/
theorem count_eq_length (s : BlockSet) : s.count = s.toList.length := by
  have hsum : ∀ k ≤ s.words.size,
      (s.words.toList.take k).foldl (fun n word => n + word.cpop.toNat) 0 =
        ((List.range k).flatMap s.wordMembers).length := by
    intro k hk
    induction k with
    | zero => rfl
    | succ k ih =>
      have hget : s.words.toList[k]? = some (s.words.getD k 0) := by
        rw [Array.getElem?_toList]
        exact Strict.getElem?_of_lt hk 0
      rw [List.take_add_one, hget, List.foldl_append, ih (Nat.le_of_lt hk), List.range_succ,
        List.flatMap_append, List.length_append]
      simp [wordMembers, length_wordBits]
  rw [count, toList_eq, ← hsum _ (Nat.le_refl _), ← Array.foldl_toList, ← Array.length_toList,
    List.take_length]

private theorem isEmpty_iff (s : BlockSet) : s.isEmpty = true ↔ s.toList = [] := by
  rw [isEmpty, Array.all_eq_true, List.eq_nil_iff_forall_not_mem]
  constructor
  · intro hz b hb
    rw [mem_toList, bit, Array.getD_eq_getD_getElem?] at hb
    by_cases hk : b.index / 64 < s.words.size
    · simp [eq_of_beq (hz _ hk), hk] at hb
    · simp [hk] at hb
  · intro hnone k hk
    apply beq_iff_eq.mpr
    apply BitVec.eq_of_getLsbD_eq
    intro j hj
    have hdiv : (64 * k + j) / 64 = k := by omega
    have hmod : (64 * k + j) % 64 = j := by omega
    have := hnone ⟨64 * k + j⟩
    rw [mem_toList, bit, hdiv, hmod] at this
    simpa [Array.getD_eq_getD_getElem?, hk] using this

/-! ## Canonical form -/

/-- Whatever blocks have been inserted, the members are the inserted blocks below the capacity. The next
insertion says that its block is new exactly if the block is below the capacity and no member yet; neither
it nor a question for a member misses its word. There are just enough words, and no bit past the capacity
is set. The members are listed once each in ascending order, their count is the length of the list, and a
set says that it is empty exactly if the list is. Two sets are equal exactly if capacity and members agree,
in whatever order and however often the blocks came. -/
theorem inserted_canonical (n : Nat) (blocks : List Block) :
    let s := inserted n blocks
    (∀ b, s.contains b = true ↔ b.index < n ∧ b ∈ blocks) ∧
    (∀ b, Strict.insertBlock s b = some (s.accepts b, inserted n (blocks ++ [b])) ∧
      (s.accepts b = true ↔ b.index < n ∧ s.contains b = false) ∧
      Strict.containsBlock s b = some (s.contains b)) ∧
    s.words.size = wordCount n ∧ (∀ i, n ≤ i → s.bit i = false) ∧
    (∀ b, b ∈ s.toList ↔ s.contains b = true) ∧
    s.toList.Pairwise (fun a b => a.index < b.index) ∧
    s.count = s.toList.length ∧ (s.isEmpty = true ↔ s.toList = []) ∧
    ∀ m others, s = inserted m others ↔
      n = m ∧ ∀ b, s.contains b = (inserted m others).contains b := by
  intro s
  have h : s.Holds blocks := holds_inserted n blocks
  have hn : s.capacity = n := capacity_inserted n blocks
  refine ⟨?_, ?_, ?_, ?_, ?_, s.pairwise_toList, s.count_eq_length, s.isEmpty_iff, ?_⟩
  · intro b
    rw [h.contains_iff, hn]
  · intro b
    rw [inserted_concat, h.sized.strict_insert, h.accepts_iff, hn]
    exact ⟨rfl, Iff.rfl, h.sized.strict_contains b⟩
  · rw [h.sized, hn]
  · intro i hi
    exact h.bit_of_le (hn ▸ hi)
  · intro b
    rw [mem_toList, h.contains_eq_bit]
  · intro m others
    constructor
    · intro he
      refine ⟨?_, fun b => by rw [he]⟩
      rw [← hn, he, capacity_inserted]
    · rintro ⟨rfl, hc⟩
      exact h.ext (holds_inserted n others) (by rw [hn, capacity_inserted]) hc

/-- A capacity that ends within a word: blocks at either side of its end and of the end of a word, in two
orders and with repetitions. -/
theorem inserted_canonical_boundary :
    let s := inserted 70 [⟨69⟩, ⟨5⟩, ⟨70⟩, ⟨63⟩, ⟨64⟩, ⟨5⟩]
    s = inserted 70 [⟨5⟩, ⟨64⟩, ⟨127⟩, ⟨64⟩, ⟨63⟩, ⟨69⟩] ∧ s ≠ inserted 71 [⟨5⟩, ⟨64⟩, ⟨63⟩, ⟨69⟩] ∧
      s.toList = [⟨5⟩, ⟨63⟩, ⟨64⟩, ⟨69⟩] ∧ s.count = 4 ∧ 70 ≤ 127 ∧ s.bit 127 = false ∧
      ¬s.accepts ⟨70⟩ = true ∧ s.accepts ⟨6⟩ = true := by
  intro s
  obtain ⟨hmem, hnext, _, hclear, _, _, hcount, _, hequal⟩ :=
    inserted_canonical 70 [⟨69⟩, ⟨5⟩, ⟨70⟩, ⟨63⟩, ⟨64⟩, ⟨5⟩]
  have hlist : s.toList = [⟨5⟩, ⟨63⟩, ⟨64⟩, ⟨69⟩] := by decide +kernel
  refine ⟨(hequal 70 _).mpr ⟨rfl, ?_⟩, ?_, hlist, ?_, by decide, hclear 127 (by decide), ?_, ?_⟩
  · intro b
    rw [Bool.eq_iff_iff, hmem, (inserted_canonical 70 _).1]
    cases b
    simp only [List.mem_cons, List.not_mem_nil, or_false, Block.mk.injEq]
    omega
  · intro he
    exact absurd ((hequal 71 _).mp he).1 (by decide)
  · rw [hcount, hlist]
    rfl
  · intro ha
    exact absurd ((hnext ⟨70⟩).2.1.mp ha).1 (by decide)
  · exact (hnext ⟨6⟩).2.1.mpr ⟨by decide, by decide +kernel⟩

end BlockSet
end Dominance
