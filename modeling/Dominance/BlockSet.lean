import Dominance.Block

/-!
# Sets of blocks below a capacity

A set of blocks is packed into 64-bit words, one bit a block, least significant bit first. Blocks at
or past the capacity are never members: inserting one changes nothing. The stable observation of a
set is `contains`; the laws say what each operation does to it.

The operations are those of `BlockSet`: `empty` is `new`, `toList` is `iter`, and the flag that
`insert` returns is `accepts` before the insertion.
-/

namespace Dominance

/-- A set of blocks below a fixed capacity. Two sets are equal when capacity and members agree. -/
structure BlockSet where
  capacity : Nat
  words : Array (BitVec 64)
deriving DecidableEq

namespace BlockSet

/-- The number of words that hold `capacity` bits. -/
def wordCount (capacity : Nat) : Nat := (capacity + 63) / 64

/-- The empty set of a capacity. -/
def empty (capacity : Nat) : BlockSet := ⟨capacity, Array.replicate (wordCount capacity) 0⟩

/-- The stored bit of an index; a missing word reads as zero. -/
def bit (s : BlockSet) (i : Nat) : Bool := (s.words.getD (i / 64) 0).getLsbD (i % 64)

/-- Membership. -/
def contains (s : BlockSet) (b : Block) : Bool := b.index < s.capacity && s.bit b.index

/-- Whether inserting a block would make the set larger. -/
def accepts (s : BlockSet) (b : Block) : Bool := b.index < s.capacity && !s.bit b.index

/-- Insert a block; a block past the capacity is left out. -/
def insert (s : BlockSet) (b : Block) : BlockSet :=
  if b.index < s.capacity then
    { s with words := s.words.modify (b.index / 64) (· ||| BitVec.twoPow 64 (b.index % 64)) }
  else s

/-- The bits that are set in a word, in ascending order. A zero word has none. -/
def wordBits (word : BitVec 64) : List Nat :=
  if word = 0 then [] else (List.range 64).filter (word.getLsbD ·)

/-- The members that a word holds, in ascending order. -/
def wordMembers (s : BlockSet) (k : Nat) : List Block :=
  (wordBits (s.words.getD k 0)).map fun i => ⟨64 * k + i⟩

/-- The members in the first words, in ascending order, followed by a given list. -/
def membersBelow (s : BlockSet) : Nat → List Block → List Block
  | 0, rest => rest
  | k + 1, rest => s.membersBelow k (s.wordMembers k ++ rest)

/-- The members in ascending order. -/
def toList (s : BlockSet) : List Block := s.membersBelow s.words.size []

/-- The number of members, counted word by word. -/
def count (s : BlockSet) : Nat := s.words.foldl (fun n word => n + word.cpop.toNat) 0

/-- A set is empty when all of its words are zero. -/
def isEmpty (s : BlockSet) : Bool := s.words.all (· == 0)

/-- The members in braces. -/
def inspect (s : BlockSet) : String :=
  "\x7b" ++ ", ".intercalate (s.toList.map Block.inspect) ++ "\x7d"

/-- Storage fits the capacity: there is exactly the number of words that it needs. -/
def Sized (s : BlockSet) : Prop := s.words.size = wordCount s.capacity

/-- An empty set has the capacity it is made for. -/
@[simp] theorem capacity_empty (n : Nat) : (empty n).capacity = n := rfl

/-- Insertion keeps the capacity. -/
@[simp] theorem capacity_insert (s : BlockSet) (b : Block) : (s.insert b).capacity = s.capacity := by
  unfold insert
  split <;> rfl

/-- The storage of an empty set fits its capacity. -/
theorem sized_empty (n : Nat) : (empty n).Sized := by simp [Sized, empty]

/-- Insertion keeps the storage as large as the capacity needs. -/
theorem sized_insert {s : BlockSet} (h : s.Sized) (b : Block) : (s.insert b).Sized := by
  unfold Sized insert at *
  split <;> simpa using h

/-- No bit of an empty set is set. -/
@[simp] theorem bit_empty (n i : Nat) : (empty n).bit i = false := by
  unfold bit empty
  rw [Array.getD_eq_getD_getElem?, Array.getElem?_replicate]
  split <;> simp

/-- The word of a block below the capacity is present. -/
theorem word_lt {s : BlockSet} (h : s.Sized) {i : Nat} (hi : i < s.capacity) :
    i / 64 < s.words.size := by
  unfold Sized wordCount at h
  omega

/-- Insertion of a block below the capacity sets its bit and no other. -/
theorem bit_insert {s : BlockSet} (h : s.Sized) {b : Block} (hb : b.index < s.capacity) (i : Nat) :
    (s.insert b).bit i = (s.bit i || decide (i = b.index)) := by
  have hw := word_lt h hb
  unfold bit insert
  rw [if_pos hb]
  simp only [Array.getD_eq_getD_getElem?, Array.getElem?_modify]
  split
  · next he =>
    have hs : s.words[b.index / 64]? = some s.words[b.index / 64] := Array.getElem?_eq_getElem hw
    rw [← he, hs]
    have hm : b.index % 64 < 64 := Nat.mod_lt _ (by decide)
    have hx : b.index % 64 = i % 64 ↔ i = b.index := by omega
    simp [hm, hx]
  · next he =>
    have hi : i ≠ b.index := fun hx => he (by rw [hx])
    simp [hi]

/-- The empty set has no member. -/
@[simp] theorem contains_empty (n : Nat) (b : Block) : (empty n).contains b = false := by
  simp [contains]

/-- Insertion adds the block if it is below the capacity, and nothing else. -/
theorem contains_insert {s : BlockSet} (h : s.Sized) (b c : Block) :
    (s.insert b).contains c = (s.contains c || (decide (c = b) && decide (b.index < s.capacity))) := by
  by_cases hb : b.index < s.capacity
  · have he : decide (c.index = b.index) = decide (c = b) := by
      cases b; cases c; simp
    unfold contains
    rw [bit_insert h hb, capacity_insert, he]
    by_cases hc : c = b
    · subst hc; simp [hb]
    · simp [hc]
  · simp [insert, hb]

/-- The bits of a word are those that are set. -/
theorem mem_wordBits {word : BitVec 64} {i : Nat} : i ∈ wordBits word ↔ word.getLsbD i = true := by
  unfold wordBits
  split
  · next hz => simp [hz]
  · rw [List.mem_filter, List.mem_range]
    exact ⟨And.right, fun h => ⟨BitVec.lt_of_getLsbD h, h⟩⟩

/-- A word holds the blocks whose bit is one of its own and is set. -/
theorem mem_wordMembers {s : BlockSet} {k : Nat} {b : Block} :
    b ∈ s.wordMembers k ↔ s.bit b.index = true ∧ b.index / 64 = k := by
  unfold wordMembers bit
  rw [List.mem_map]
  constructor
  · rintro ⟨i, hi, rfl⟩
    rw [mem_wordBits] at hi
    have hlt := BitVec.lt_of_getLsbD hi
    have hk : (64 * k + i) / 64 = k := by omega
    have hm : (64 * k + i) % 64 = i := by omega
    exact ⟨by rw [hk, hm]; exact hi, hk⟩
  · rintro ⟨h, rfl⟩
    exact ⟨b.index % 64, mem_wordBits.mpr h, congrArg Block.mk (Nat.div_add_mod b.index 64)⟩

/-- The words hold the listed members in turn. -/
theorem membersBelow_eq (s : BlockSet) (k : Nat) (rest : List Block) :
    s.membersBelow k rest = (List.range k).flatMap s.wordMembers ++ rest := by
  induction k generalizing rest with
  | zero => rfl
  | succ k ih => simp [membersBelow, ih, List.range_succ]

/-- The members are listed word by word. -/
theorem toList_eq (s : BlockSet) : s.toList = (List.range s.words.size).flatMap s.wordMembers := by
  rw [toList, membersBelow_eq, List.append_nil]

/-- The list of members holds the blocks whose bits are set. -/
theorem mem_toList {s : BlockSet} {b : Block} : b ∈ s.toList ↔ s.bit b.index = true := by
  rw [toList_eq, List.mem_flatMap]
  constructor
  · rintro ⟨k, _, h⟩
    exact (mem_wordMembers.mp h).1
  · intro h
    refine ⟨b.index / 64, List.mem_range.mpr (Nat.lt_of_not_le fun hk => ?_),
      mem_wordMembers.mpr ⟨h, rfl⟩⟩
    rw [bit, Array.getD_eq_getD_getElem?, Array.getElem?_eq_none hk] at h
    simp at h

end BlockSet
end Dominance
