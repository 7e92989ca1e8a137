import Mathlib.Data.List.Nodup
import Dominance.Proofs.Tree.Frontier

/-!
# The forest by its children

The links of a forest are kept three times: as the immediate dominator of each block, as positions below
each position, and as a table that lists under each dominator what it dominates. Each of them lists a
link exactly once. All reached blocks other than the roots have a link, and every reached block hangs
in the tree of exactly one root.
-/

namespace Dominance

namespace Multimap

variable {κ ν : Type} [Ord κ] [Std.TransOrd κ] [Ord ν] [Std.TransOrd ν]

/-- Every key with each of its values. -/
def pairs (m : Multimap κ ν) : List (κ × ν) := m.toList.flatMap fun x => x.2.map (Prod.mk x.1)

private theorem length_pairs (m : Multimap κ ν) : m.pairs.length = m.valueCount := by
  simp [pairs, valueCount, List.length_flatMap]

variable [Std.LawfulEqOrd κ]

private theorem mem_toList {m : Multimap κ ν} {k : κ} {vs : List ν} :
    (k, vs) ∈ m.toList ↔ m.get? k = some vs := by
  unfold toList get?
  rw [List.mem_map, Option.map_eq_some_iff]
  constructor
  · rintro ⟨x, hx, he⟩
    cases he
    exact ⟨x.2, Std.ExtTreeMap.mem_toList_iff_getElem?_eq_some.mp hx, rfl⟩
  · rintro ⟨s, hs, rfl⟩
    exact ⟨(k, s), Std.ExtTreeMap.mem_toList_iff_getElem?_eq_some.mpr hs, rfl⟩

/-- The pairs of a multimap are the values that are stored, with their keys. -/
theorem mem_pairs [Std.LawfulEqOrd ν] {m : Multimap κ ν} {k : κ} {v : ν} :
    (k, v) ∈ m.pairs ↔ m.contains k v = true := by
  rw [← mem_values, pairs, List.mem_flatMap]
  constructor
  · rintro ⟨x, hx, hv⟩
    obtain ⟨w, hw, he⟩ := List.mem_map.mp hv
    cases he
    rw [values, mem_toList.mp hx]
    exact hw
  · intro hv
    cases hk : m.get? k with
    | none => simp [values, hk] at hv
    | some vs =>
      rw [values, hk] at hv
      exact ⟨(k, vs), mem_toList.mpr hk, List.mem_map_of_mem hv⟩

private theorem pairwise_keys (m : Multimap κ ν) : m.toList.Pairwise fun x y => x.1 ≠ y.1 := by
  unfold toList
  rw [List.pairwise_map]
  apply m.entries.distinct_keys_toList.imp
  intro x y h he
  exact h (Std.LawfulEqOrd.compare_eq_iff_eq.mpr he)

/-- No pair is listed twice. -/
theorem nodup_pairs [Std.LawfulEqOrd ν] (m : Multimap κ ν) : m.pairs.Nodup := by
  rw [pairs, List.nodup_flatMap]
  constructor
  · intro x hx
    have hvalues : m.values x.1 = x.2 := by rw [values, mem_toList.mp hx, Option.getD_some]
    exact (hvalues ▸ m.nodup_values x.1).map fun _ _ he => congrArg Prod.snd he
  · apply m.pairwise_keys.imp
    intro x y hne p hx hy
    obtain ⟨_, _, rfl⟩ := List.mem_map.mp hx
    obtain ⟨_, _, he⟩ := List.mem_map.mp hy
    exact hne (congrArg Prod.fst he).symm

end Multimap

namespace Tree

variable {t : Tree} {f : Flow} {roots : List Block} {b d x y : Block}

/-- The links of a forest, one for each visit that has one. -/
def links (t : Tree) : List (Block × Block) :=
  t.order.toList.filterMap fun b => (t.idom? b).map (·, b)

namespace Exact

variable (ht : t.Exact f roots)
include ht

/-! ## Links -/

/-- Positions hang below positions as blocks hang below blocks. -/
theorem idom?_iff_children : t.idom? y = some x ↔ ∃ i j, t.position? x = some i ∧
    t.position? y = some j ∧ j ∈ (t.children.getD i #[]).toList := by
  constructor
  · intro h
    obtain ⟨i, hi⟩ := ht.exists_position (ht.reaches_idom h)
    obtain ⟨j, hj⟩ := ht.exists_position (ht.reaches_of_idom? y x h)
    exact ⟨i, j, (ht.position?_iff x i).mpr hi, (ht.position?_iff y j).mpr hj,
      (ht.mem_children_iff i j x hi).mpr ⟨y, hj, h⟩⟩
  · rintro ⟨i, j, hi, hj, hmem⟩
    obtain ⟨b, hb, h⟩ := (ht.mem_children_iff i j x ((ht.position?_iff x i).mp hi)).mp hmem
    rw [(ht.position?_iff y j).mp hj] at hb
    cases hb
    exact h

private theorem mem_links : (d, b) ∈ t.links ↔ t.idom? b = some d := by
  simp only [links, List.mem_filterMap, Option.map_eq_some_iff, ht.mem_order]
  constructor
  · rintro ⟨c, _, e, he, heq⟩
    cases heq
    exact he
  · intro h
    exact ⟨b, ht.reaches_of_idom? b d h, d, h, rfl⟩

private theorem nodup_links : t.links.Nodup := by
  apply ht.nodup_order.filterMap
  intro b c p hb hc
  obtain ⟨_, _, rfl⟩ := Option.map_eq_some_iff.mp hb
  obtain ⟨_, _, he⟩ := Option.map_eq_some_iff.mp hc
  exact (congrArg Prod.snd he).symm

/-- The table of dominated blocks lists every link once. -/
theorem perm_pairs_dominated : t.dominated.pairs.Perm t.links := by
  rw [List.perm_ext_iff_of_nodup (Multimap.nodup_pairs _) ht.nodup_links]
  rintro ⟨d, b⟩
  rw [Multimap.mem_pairs, ht.contains_dominated, ht.mem_links]

/-- No dominator is listed without blocks that it dominates. -/
theorem values_dominated_ne_nil (h : t.dominated.containsKey d = true) :
    t.dominated.values d ≠ [] := by
  obtain ⟨b, hb⟩ := exists_idom_of_containsKey h
  exact List.ne_nil_of_mem (Multimap.mem_values.mpr (ht.contains_dominated.mpr hb))

/-! ## Trees -/

/-- The roots are the reached blocks that hang nowhere. -/
theorem mem_roots : b ∈ t.roots ↔ f.Reaches roots b ∧ t.idom? b = none := by
  rw [ht.mem_roots_iff]
  constructor
  · intro hb
    exact ⟨f.reaches_of_mem hb, ht.idom?_root hb⟩
  · rintro ⟨hb, h⟩
    exact (ht.placed_top hb h).1

/-- Blocks hang below something, unless they are roots. -/
theorem valueCount_dominated (hroots : t.roots.Nodup) :
    t.dominated.valueCount + t.roots.length = t.size := by
  have hlinks : t.links.length = t.order.toList.countP fun b => (t.idom? b).isSome := by
    simp [links, List.length_filterMap_eq_countP]
  have htops : t.roots.Perm (t.order.toList.filter fun b => ¬(t.idom? b).isSome = true) := by
    rw [List.perm_ext_iff_of_nodup hroots (ht.nodup_order.filter _)]
    intro b
    simp [ht.mem_roots, ht.mem_order]
  calc t.dominated.valueCount + t.roots.length
      = t.links.length + t.roots.length := by
        rw [← Multimap.length_pairs, ht.perm_pairs_dominated.length_eq]
    _ = t.order.toList.length := by
        rw [hlinks, htops.length_eq, ← List.countP_eq_length_filter]
        exact (List.length_eq_countP_add_countP _).symm
    _ = t.size := Array.length_toList

/-- The way up from a reached block ends at a root, and no other root is on it. -/
theorem exists_head (hb : f.Reaches roots b) : ∃ r ∈ t.roots, (t.dominators b).getLast? = some r ∧
    ∀ a ∈ t.roots, t.dominates a b = true ↔ a = r := by
  have w := ht.wayUp_dominators hb
  obtain ⟨r, hr, htop⟩ := w.getLast?
  have hrb : t.Above r b := w.mem_iff.mp (List.mem_of_getLast? hr)
  have hroot : r ∈ t.roots := ht.mem_roots.mpr ⟨ht.reaches_above hrb hb, htop⟩
  refine ⟨r, hroot, hr, fun a ha => ?_⟩
  rw [ht.dominates_iff_above]
  constructor
  · rintro ⟨_, hab⟩
    rw [ht.mem_roots_iff] at ha hroot
    rcases hab.total hrb with h | h
    · exact ht.eq_of_above_root hroot h
    · exact (ht.eq_of_above_root ha h).symm
  · rintro rfl
    exact ⟨hb, hrb⟩

end Exact
end Tree
end Dominance
