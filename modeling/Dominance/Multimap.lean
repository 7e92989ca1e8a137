import Std.Data.ExtTreeMap
import Std.Data.ExtTreeSet

/-!
# Ordered multimaps

A multimap sends each key to a set of values; keys and values are kept in ascending order. A key may
be present with no value. Equality is extensional: two multimaps with the same keys and the same
values under each are equal.

The operations are those of `Multimap`: `get_or_insert_default` is `insertMany` of no value, and
`take` is `get?` followed by `erase`.
-/

namespace Dominance

/-- A map from keys to ordered sets of values. -/
structure Multimap (κ ν : Type) [Ord κ] [Std.TransOrd κ] [Ord ν] [Std.TransOrd ν] where
  entries : Std.ExtTreeMap κ (Std.ExtTreeSet ν)

namespace Multimap

variable {κ ν : Type} [Ord κ] [Std.TransOrd κ] [Ord ν] [Std.TransOrd ν]

/-- The multimap without keys. -/
def empty : Multimap κ ν := ⟨∅⟩

instance : EmptyCollection (Multimap κ ν) := ⟨empty⟩

instance : Inhabited (Multimap κ ν) := ⟨empty⟩

instance [Std.LawfulEqOrd κ] [Std.LawfulEqOrd ν] : DecidableEq (Multimap κ ν) := fun a b =>
  decidable_of_iff (a.entries = b.entries) (by
    cases a
    cases b
    simp)

/-- The values of a key in ascending order, if the key is present. -/
def get? (m : Multimap κ ν) (k : κ) : Option (List ν) := m.entries[k]?.map (·.toList)

/-- The values of a key in ascending order; an absent key has none. -/
def values (m : Multimap κ ν) (k : κ) : List ν := (m.get? k).getD []

/-- Whether a value is stored under a key. -/
def contains (m : Multimap κ ν) (k : κ) (v : ν) : Bool :=
  match m.entries[k]? with
  | none => false
  | some s => s.contains v

/-- Whether a key is present, with or without values. -/
def containsKey (m : Multimap κ ν) (k : κ) : Bool := m.entries.contains k

/-- Store values under a key. The key becomes present even if the list is empty. -/
def insertMany (m : Multimap κ ν) (k : κ) (vs : List ν) : Multimap κ ν :=
  ⟨m.entries.alter k fun s => some (vs.foldl (·.insert ·) (s.getD ∅))⟩

/-- Store one value under a key. -/
def insert (m : Multimap κ ν) (k : κ) (v : ν) : Multimap κ ν := m.insertMany k [v]

/-- Remove a key with all of its values. -/
def erase (m : Multimap κ ν) (k : κ) : Multimap κ ν := ⟨m.entries.erase k⟩

/-- The keys in ascending order. -/
def keys (m : Multimap κ ν) : List κ := m.entries.keys

/-- All keys with their values, both ascending. -/
def toList (m : Multimap κ ν) : List (κ × List ν) :=
  m.entries.toList.map fun (k, s) => (k, s.toList)

/-- The number of keys. -/
def size (m : Multimap κ ν) : Nat := m.entries.size

/-- Whether there is no key. -/
def isEmpty (m : Multimap κ ν) : Bool := m.entries.isEmpty

/-- The number of values under all keys. -/
def valueCount (m : Multimap κ ν) : Nat := (m.toList.flatMap Prod.snd).length

private def braced (parts : List String) : String := "\x7b" ++ ", ".intercalate parts ++ "\x7d"

/-- The long form of a multimap, given the texts of keys and values. -/
def inspect (m : Multimap κ ν) (key : κ → String) (value : ν → String) : String :=
  "Multimap \x7b map: " ++
    braced (m.toList.map fun (k, vs) => key k ++ ": " ++ braced (vs.map value)) ++ " \x7d"

/-- Multimaps are equal when they agree on every key. -/
theorem ext [Std.LawfulEqOrd κ] {a b : Multimap κ ν}
    (h : ∀ k : κ, a.entries[k]? = b.entries[k]?) : a = b := by
  cases a
  cases b
  exact congrArg Multimap.mk (Std.ExtTreeMap.ext_getElem? h)

/-- Nothing is stored in the empty multimap. -/
@[simp] theorem contains_empty (k : κ) (v : ν) : (empty : Multimap κ ν).contains k v = false := by
  have h : (empty : Multimap κ ν).entries[k]? = none := Std.ExtTreeMap.getElem?_empty
  simp [contains, h]

private theorem mem_foldl_insert [Std.LawfulEqOrd ν] {s : Std.ExtTreeSet ν} {vs : List ν} {v : ν} :
    v ∈ vs.foldl (·.insert ·) s ↔ v ∈ s ∨ v ∈ vs := by
  induction vs generalizing s with
  | nil => simp
  | cons w vs ih =>
    rw [List.foldl_cons, ih, Std.ExtTreeSet.mem_insert, Std.LawfulEqOrd.compare_eq_iff_eq,
      List.mem_cons]
    grind

/-- After storing values under a key, exactly these are new under that key. -/
theorem contains_insertMany [Std.LawfulEqOrd κ] [Std.LawfulEqOrd ν] (m : Multimap κ ν) (k j : κ)
    (vs : List ν) (v : ν) :
    (m.insertMany k vs).contains j v = true ↔ m.contains j v = true ∨ (k = j ∧ v ∈ vs) := by
  unfold contains insertMany
  simp only [Std.ExtTreeMap.getElem?_alter, Std.LawfulEqOrd.compare_eq_iff_eq]
  by_cases h : k = j
  · subst h
    cases m.entries[k]? <;> simp [mem_foldl_insert]
  · simp [h]

/-- After storing one value under a key, exactly it is new under that key. -/
theorem contains_insert [Std.LawfulEqOrd κ] [Std.LawfulEqOrd ν] (m : Multimap κ ν) (k j : κ)
    (w v : ν) :
    (m.insert k w).contains j v = true ↔ m.contains j v = true ∨ (k = j ∧ v = w) := by
  simp [insert, contains_insertMany]

/-- Removing a key removes its values and no others. -/
theorem contains_erase [Std.LawfulEqOrd κ] (m : Multimap κ ν) (k j : κ) (v : ν) :
    (m.erase k).contains j v = true ↔ k ≠ j ∧ m.contains j v = true := by
  unfold contains erase
  simp only [Std.ExtTreeMap.getElem?_erase, Std.LawfulEqOrd.compare_eq_iff_eq]
  by_cases h : k = j <;> simp [h]

/-- No key is present in the empty multimap. -/
theorem containsKey_empty (k : κ) : (empty : Multimap κ ν).containsKey k = false :=
  Std.ExtTreeMap.contains_empty

/-- Storing values makes their key present and no other. -/
theorem containsKey_insertMany [Std.LawfulEqOrd κ] (m : Multimap κ ν) (k j : κ) (vs : List ν) :
    (m.insertMany k vs).containsKey j = true ↔ k = j ∨ m.containsKey j = true := by
  unfold containsKey insertMany
  simp only [Std.ExtTreeMap.contains_eq_isSome_getElem?, Std.ExtTreeMap.getElem?_alter,
    Std.LawfulEqOrd.compare_eq_iff_eq]
  by_cases h : k = j
  · simp [h]
  · simp [h]

/-- Storing a value makes its key present and no other. -/
theorem containsKey_insert [Std.LawfulEqOrd κ] (m : Multimap κ ν) (k j : κ) (v : ν) :
    (m.insert k v).containsKey j = true ↔ k = j ∨ m.containsKey j = true :=
  m.containsKey_insertMany k j [v]

/-- A key with a value is present. -/
theorem containsKey_of_contains {m : Multimap κ ν} {k : κ} {v : ν} (h : m.contains k v = true) :
    m.containsKey k = true := by
  unfold contains at h
  unfold containsKey
  rw [Std.ExtTreeMap.contains_eq_isSome_getElem?]
  split at h
  · cases h
  · next s hs => rw [hs, Option.isSome_some]

/-- A present key has its values. -/
theorem get?_of_containsKey {m : Multimap κ ν} {k : κ} (h : m.containsKey k = true) :
    m.get? k = some (m.values k) := by
  unfold containsKey at h
  rw [Std.ExtTreeMap.contains_eq_isSome_getElem?] at h
  unfold values get?
  rcases Option.isSome_iff_exists.mp h with ⟨s, hs⟩
  rw [hs]
  rfl

/-- An absent key has no entry. -/
theorem get?_of_not_containsKey {m : Multimap κ ν} {k : κ} (h : ¬m.containsKey k = true) :
    m.get? k = none := by
  unfold containsKey at h
  rw [Std.ExtTreeMap.contains_eq_isSome_getElem?, Option.not_isSome_iff_eq_none] at h
  unfold get?
  rw [h]
  rfl

/-- The values of a key are the values stored under it. -/
theorem mem_values [Std.LawfulEqOrd ν] {m : Multimap κ ν} {k : κ} {v : ν} :
    v ∈ m.values k ↔ m.contains k v = true := by
  unfold values get? contains
  cases m.entries[k]? with
  | none => simp
  | some s => simp

/-- The values of a key are listed in strictly ascending order. -/
theorem pairwise_values (m : Multimap κ ν) (k : κ) :
    (m.values k).Pairwise fun a b => compare a b = .lt := by
  unfold values get?
  cases m.entries[k]? with
  | none => simp
  | some s => exact s.ordered_toList

/-- No value of a key is listed twice. -/
theorem nodup_values (m : Multimap κ ν) (k : κ) : (m.values k).Nodup := by
  apply (m.pairwise_values k).imp
  rintro a _ h rfl
  rw [Std.ReflOrd.compare_self] at h
  cases h

/-- Removing a key makes it absent and no other. -/
theorem containsKey_erase [Std.LawfulEqOrd κ] (m : Multimap κ ν) (k j : κ) :
    (m.erase k).containsKey j = true ↔ k ≠ j ∧ m.containsKey j = true := by
  unfold containsKey erase
  simp only [Std.ExtTreeMap.contains_eq_isSome_getElem?, Std.ExtTreeMap.getElem?_erase,
    Std.LawfulEqOrd.compare_eq_iff_eq]
  by_cases h : k = j <;> simp [h]

/-- A multimap without keys is empty. -/
theorem eq_empty [Std.LawfulEqOrd κ] {m : Multimap κ ν} (h : ∀ k, ¬m.containsKey k = true) :
    m = empty := by
  apply ext
  intro k
  have hk := h k
  unfold containsKey at hk
  rw [Std.ExtTreeMap.contains_eq_isSome_getElem?, Option.not_isSome_iff_eq_none] at hk
  rw [hk]
  exact Std.ExtTreeMap.getElem?_empty.symm

end Multimap
end Dominance
