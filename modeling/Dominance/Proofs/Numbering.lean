import Mathlib.Data.List.Induction
import Mathlib.Data.List.TakeWhile
import Dominance.Proofs.Ancestor
import Dominance.Proofs.Preorder

/-!
# Numberings of traversals are depth-first

A survey of an order knows the last position of every block, all blocks that lead to it, and the last
block before it that does. For the order of a traversal the positions are inverse to the order, the
parent of a number is the greatest number before it that leads to it, and the laws of depth-first
numbers hold.
-/

namespace Dominance
namespace Survey

variable {f : Flow} {s : Survey} {order : List Block} {b c u : Block} {i j : Nat}

private theorem note_foldl (b : Block) (cs : List Block) (s : Survey) :
    (cs.foldl (note b) s).size = s.size ∧ (cs.foldl (note b) s).position = s.position ∧
      (∀ c u, (cs.foldl (note b) s).sources.contains c u = true ↔
        s.sources.contains c u = true ∨ (u = b ∧ c ∈ cs)) ∧
      (∀ c : Block, (cs.foldl (note b) s).finder[c]? =
        if c ∈ cs ∧ c ∉ s.position then some b else s.finder[c]?) := by
  induction cs generalizing s with
  | nil => simp
  | cons d cs ih =>
    obtain ⟨hsize, hpos, hsrc, hfind⟩ := ih (note b s d)
    rw [List.foldl_cons]
    refine ⟨hsize, hpos, ?_, ?_⟩
    · intro c u
      rw [hsrc]
      change (s.sources.insert d b).contains c u = true ∨ _ ↔ _
      rw [Multimap.contains_insert, List.mem_cons]
      grind
    · intro c
      rw [hfind]
      change (if c ∈ cs ∧ c ∉ s.position then some b
        else (if s.position.contains d then s.finder else s.finder.insert d b)[c]?) = _
      by_cases hc : c ∈ s.position
      · have hd : ¬s.position.contains d = true → d ≠ c := by
          rintro hx rfl
          exact hx hc
        by_cases hx : s.position.contains d = true
        · simp [hc, hx]
        · simp [hc, hx, Std.ExtTreeMap.getElem?_insert, hd hx]
      · by_cases hdc : d = c
        · subst hdc
          simp [hc, Std.ExtTreeMap.contains_eq_isSome_getElem?]
        · have hcd : c ≠ d := Ne.symm hdc
          by_cases hx : s.position.contains d = true
          · simp [hc, hx, hcd]
          · simp [hc, hx, hcd, Std.ExtTreeMap.getElem?_insert, hdc]

private theorem ofOrder_concat (f : Flow) (order : List Block) (b : Block) :
    ofOrder f (order ++ [b]) = extend f (ofOrder f order) b := by
  rw [ofOrder, List.foldl_append]
  rfl

/-- A survey counts the blocks that it has come to. -/
@[simp] theorem size_ofOrder (f : Flow) (order : List Block) :
    (ofOrder f order).size = order.length := by
  induction order using List.reverseRecOn with
  | nil => rfl
  | append_singleton order b ih =>
    rw [ofOrder_concat, extend, (note_foldl b _ _).1, ih, List.length_append, List.length_singleton]

private theorem position_concat (f : Flow) (order : List Block) (b c : Block) :
    (ofOrder f (order ++ [b])).position[c]? =
      if b = c then some order.length else (ofOrder f order).position[c]? := by
  rw [ofOrder_concat, extend, (note_foldl b _ _).2.1]
  change ((ofOrder f order).position.insert b (ofOrder f order).size)[c]? = _
  rw [Std.ExtTreeMap.getElem?_insert, size_ofOrder]
  simp only [Std.LawfulEqOrd.compare_eq_iff_eq]

/-- A block has a position exactly if it is part of the order. -/
theorem mem_position (f : Flow) (order : List Block) (c : Block) :
    c ∈ (ofOrder f order).position ↔ c ∈ order := by
  induction order using List.reverseRecOn with
  | nil => simp [ofOrder, empty]
  | append_singleton order b ih =>
    rw [Std.ExtTreeMap.mem_iff_isSome_getElem?, position_concat, List.mem_append,
      List.mem_singleton, ← ih, Std.ExtTreeMap.mem_iff_isSome_getElem?]
    by_cases h : b = c
    · simp [h]
    · simp [h, Ne.symm h]

/-- The position of a block is one at which it stands. -/
theorem getElem?_of_position (h : (ofOrder f order).position[c]? = some i) :
    order[i]? = some c := by
  induction order using List.reverseRecOn with
  | nil => simp [ofOrder, empty] at h
  | append_singleton order b ih =>
    rw [position_concat] at h
    split at h
    · next hb =>
      cases h
      rw [List.getElem?_concat_length, hb]
    · have := ih h
      rw [List.getElem?_append_left (List.getElem?_eq_some_iff.mp this).1, this]

/-- The positions of an order without repetitions are its inverse. -/
theorem position_eq_some_iff (hd : order.Nodup) :
    (ofOrder f order).position[c]? = some i ↔ order[i]? = some c := by
  constructor
  · exact getElem?_of_position
  · intro h
    have hc : c ∈ (ofOrder f order).position :=
      (mem_position f order c).mpr (List.mem_of_getElem? h)
    rw [Std.ExtTreeMap.mem_iff_isSome_getElem?, Option.isSome_iff_exists] at hc
    obtain ⟨j, hj⟩ := hc
    have hjc := getElem?_of_position hj
    obtain ⟨hi, _⟩ := List.getElem?_eq_some_iff.mp h
    rw [hj, (List.getElem?_inj hi hd).mp (h.trans hjc.symm)]

/-- The sources of a block are the blocks of the order that lead to it. -/
theorem contains_sources (f : Flow) (order : List Block) (c u : Block) :
    (ofOrder f order).sources.contains c u = true ↔ u ∈ order ∧ c ∈ f.successors u := by
  induction order using List.reverseRecOn with
  | nil => simp [ofOrder, empty]
  | append_singleton order b ih =>
    rw [ofOrder_concat, extend, (note_foldl b _ _).2.2.1, List.mem_append, List.mem_singleton]
    change (ofOrder f order).sources.contains c u = true ∨ _ ↔ _
    rw [ih]
    grind

private theorem forall_ne {l : List Block} (h : c ∉ l) : ∀ x ∈ l, decide (x ≠ c) = true := by
  intro x hx
  exact decide_eq_true fun he => h (he ▸ hx)

private theorem takeWhile_of_not_mem {l : List Block} (h : c ∉ l) : l.takeWhile (· ≠ c) = l :=
  List.takeWhile_eq_self_iff.mpr (forall_ne h)

private theorem takeWhile_append_cons {l r : List Block} (h : c ∉ l) :
    (l ++ c :: r).takeWhile (· ≠ c) = l := by
  rw [List.takeWhile_append_of_pos (forall_ne h), List.takeWhile_cons_of_neg (by simp),
    List.append_nil]

/-- A block is found by the last block before it that leads to it. -/
theorem finder_eq (f : Flow) (order : List Block) (c : Block) :
    (ofOrder f order).finder[c]? =
      (order.takeWhile (· ≠ c)).reverse.find? fun u => c ∈ f.successors u := by
  induction order using List.reverseRecOn with
  | nil => simp [ofOrder, empty]
  | append_singleton order b ih =>
    have hmem : c ∈ (ofOrder f order).position.insert b (ofOrder f order).size ↔
        b = c ∨ c ∈ order := by
      rw [Std.ExtTreeMap.mem_insert, mem_position, Std.LawfulEqOrd.compare_eq_iff_eq]
    rw [ofOrder_concat, extend, (note_foldl b _ _).2.2.2]
    change (if c ∈ f.successors b ∧
      c ∉ (ofOrder f order).position.insert b (ofOrder f order).size then some b
      else (ofOrder f order).finder[c]?) = _
    rw [ih]
    by_cases hc : c ∈ order
    · obtain ⟨l, r, rfl, hl⟩ := List.eq_append_cons_of_mem hc
      rw [if_neg (fun hx => hx.2 (hmem.mpr (Or.inr hc))), List.append_assoc, List.cons_append,
        takeWhile_append_cons hl, takeWhile_append_cons hl]
    · by_cases hb : b = c
      · subst hb
        rw [if_neg (fun hx => hx.2 (hmem.mpr (Or.inl rfl))), takeWhile_append_cons hc,
          takeWhile_of_not_mem hc]
      · have hnot : c ∉ order ++ [b] := by
          rw [List.mem_append, List.mem_singleton, not_or]
          exact ⟨hc, Ne.symm hb⟩
        rw [takeWhile_of_not_mem hc, takeWhile_of_not_mem hnot, List.reverse_append,
          List.reverse_singleton, List.singleton_append, List.find?_cons]
        by_cases hbc : c ∈ f.successors b
        · rw [if_pos ⟨hbc, fun hx => (hmem.mp hx).elim hb hc⟩, decide_eq_true hbc]
        · rw [if_neg (fun hx => hbc hx.1), decide_eq_false hbc]

private theorem takeWhile_eq_take (hd : order.Nodup) (hb : order[i]? = some b) :
    order.takeWhile (· ≠ b) = order.take i := by
  obtain ⟨hi, he⟩ := List.getElem?_eq_some_iff.mp hb
  have hsplit : order = order.take i ++ b :: order.drop (i + 1) := by
    rw [← he, ← List.drop_eq_getElem_cons hi, List.take_append_drop]
  have hnot : b ∉ order.take i := by
    rw [hsplit] at hd
    intro hx
    exact (List.nodup_append.mp hd).2.2 b hx b List.mem_cons_self rfl
  rw [hsplit, takeWhile_append_cons hnot, ← hsplit]

/-- The parent of a block is the greatest number before it that leads to it, and zero if no block
before it does. -/
theorem parentNumber_spec (hd : order.Nodup) (hb : order[i]? = some b) :
    (ofOrder f order).parentNumber b ≤ i ∧
      ((ofOrder f order).parentNumber b = 0 ∨ ∃ j u, (ofOrder f order).parentNumber b = j + 1 ∧
        order[j]? = some u ∧ b ∈ f.successors u) ∧
      ∀ j u, j < i → order[j]? = some u → b ∈ f.successors u →
        j + 1 ≤ (ofOrder f order).parentNumber b := by
  have hfinder := finder_eq f order b
  rw [takeWhile_eq_take hd hb] at hfinder
  unfold parentNumber
  rw [hfinder]
  cases hfind : (order.take i).reverse.find? fun u => decide (b ∈ f.successors u) with
  | none =>
    refine ⟨Nat.zero_le i, Or.inl rfl, ?_⟩
    intro j u hj hu hub
    have hmem : u ∈ (order.take i).reverse := by
      rw [List.mem_reverse]
      exact List.mem_of_getElem? ((List.getElem?_take_of_lt hj).trans hu)
    exact absurd (decide_eq_true hub) (List.find?_eq_none.mp hfind u hmem)
  | some v =>
    obtain ⟨hvb, after, before, hsplit, hafter⟩ := List.find?_eq_some_iff_append.mp hfind
    have htake : order.take i = before.reverse ++ v :: after.reverse := by
      rw [← List.reverse_reverse (order.take i), hsplit]
      simp
    have hlen := congrArg List.length htake
    rw [List.length_take, List.length_append, List.length_cons, List.length_reverse,
      List.length_reverse] at hlen
    have hv : order[before.length]? = some v := by
      rw [← List.getElem?_take_of_lt (by omega : before.length < i), htake,
        List.getElem?_append_right (by simp)]
      simp
    rw [Option.bind_some, (position_eq_some_iff hd).mpr hv]
    refine ⟨?_, Or.inr ⟨before.length, v, rfl, hv, of_decide_eq_true hvb⟩, ?_⟩
    · change before.length + 1 ≤ i
      omega
    intro j u hj hu hub
    apply Nat.succ_le_succ
    apply Nat.le_of_not_lt
    intro hlt
    rw [← List.getElem?_take_of_lt hj, htake, List.getElem?_append_right (by simp; omega),
      List.length_reverse, List.getElem?_cons, if_neg (by omega)] at hu
    have hmem := List.mem_reverse.mp (List.mem_of_getElem? hu)
    have hnot := hafter u hmem
    rw [decide_eq_true hub] at hnot
    cases hnot

end Survey

namespace Numbering

variable {f : Flow} {roots order : List Block} {b c : Block} {i t w : Nat}

/-- The parent of a number is the one that the survey has for its block. -/
theorem parentOf_succ (hb : order[i]? = some b) :
    (ofOrder f roots order).parentOf (i + 1) = (Survey.ofOrder f order).parentNumber b := by
  simp [parentOf, ofOrder, Array.getD_eq_getD_getElem?, hb]

private theorem mem_sourceNumbers (hd : order.Nodup) :
    t ∈ (Survey.ofOrder f order).sourceNumbers b ↔
      ∃ j u, t = j + 1 ∧ order[j]? = some u ∧ b ∈ f.successors u := by
  unfold Survey.sourceNumbers
  rw [List.mem_filterMap]
  constructor
  · rintro ⟨u, hu, ht⟩
    obtain ⟨j, hj, rfl⟩ := Option.map_eq_some_iff.mp ht
    rw [Multimap.mem_values, Survey.contains_sources] at hu
    exact ⟨j, u, rfl, Survey.getElem?_of_position hj, hu.2⟩
  · rintro ⟨j, u, rfl, hj, hub⟩
    refine ⟨u, ?_, ?_⟩
    · rw [Multimap.mem_values, Survey.contains_sources]
      exact ⟨List.mem_of_getElem? hj, hub⟩
    · rw [(Survey.position_eq_some_iff hd).mpr hj]
      rfl

/-- Leading from a number to a number is leading from it to the block of that number. -/
theorem leads_succ_iff (hd : order.Nodup) (hin : ∀ b ∈ order, f.has b = true) :
    (ofOrder f roots order).Leads t (i + 1) ↔ ∃ b, order[i]? = some b ∧ f.Finds roots order t b := by
  unfold Leads predsOf
  cases hb : order[i]? with
  | none => simp [ofOrder, Array.getD_eq_getD_getElem?, hb]
  | some b =>
    have hhas := hin b (List.mem_of_getElem? hb)
    have hpreds : (ofOrder f roots order).preds.getD (i + 1) [] =
        (Survey.ofOrder f order).sourceNumbers b ++
          if (Std.ExtTreeSet.ofList roots).contains b then [0] else [] := by
      simp [ofOrder, Array.getD_eq_getD_getElem?, hb]
    have hone : (∃ c, some b = some c ∧ f.Finds roots order t c) ↔ f.Finds roots order t b := by
      simp
    rw [hpreds, hone, List.mem_append, mem_sourceNumbers hd, Std.ExtTreeSet.contains_ofList]
    cases t with
    | zero => simp [Flow.Finds, Flow.validRoots, hhas]
    | succ j =>
      constructor
      · rintro (⟨j', u, hj, hu⟩ | h)
        · cases hj
          exact ⟨u, hu⟩
        · split at h
          · cases List.mem_singleton.mp h
          · cases h
      · rintro ⟨u, hu⟩
        exact Or.inl ⟨j, u, rfl, hu⟩

private theorem not_leads_zero : ¬(ofOrder f roots order).Leads t 0 := by
  simp [Leads, predsOf, ofOrder, Array.getD_eq_getD_getElem?]

/-- The parent of a number leads to it. -/
private theorem parentNumber_finds (hd : order.Nodup) (hnest : f.Nested roots order)
    (hb : order[i]? = some b) :
    f.Finds roots order ((Survey.ofOrder f order).parentNumber b) b := by
  obtain ⟨_, hparent, hmax⟩ := Survey.parentNumber_spec (f := f) hd hb
  rcases hparent with h0 | ⟨j, u, hj, hu, hub⟩
  · -- No block before leads to `b`, so the virtual entry found it.
    obtain ⟨t, ht, hfind, _⟩ := hnest i b hb
    cases t with
    | zero =>
      rw [h0]
      exact hfind
    | succ j =>
      obtain ⟨u, hu, hub⟩ := hfind
      have := hmax j u (by omega) hu hub
      omega
  · rw [hj]
    exact ⟨u, hu, hub⟩

/-- While a number has a block to lead to that comes later, nothing is found by a number before it. -/
private theorem le_parentNumber (hd : order.Nodup) (hnest : f.Nested roots order)
    (hb : order[i]? = some b) (ht : t ≤ i) (htc : f.Finds roots order t c)
    (hc : c ∉ order.take (i + 1) ∨ c = b) : t ≤ (Survey.ofOrder f order).parentNumber b := by
  obtain ⟨_, _, hmax⟩ := Survey.parentNumber_spec (f := f) hd hb
  have hle : ∀ s, s ≤ i → f.Finds roots order s b →
      s ≤ (Survey.ofOrder f order).parentNumber b := by
    intro s hs hfind
    cases s with
    | zero => exact Nat.zero_le _
    | succ j =>
      obtain ⟨u, hu, hub⟩ := hfind
      exact hmax j u (by omega) hu hub
  rcases hc with hc | rfl
  · obtain ⟨s, hs, hfind, hbest⟩ := hnest i b hb
    exact Nat.le_trans (hbest t c ht htc hc) (hle s hs hfind)
  · exact hle t ht htc

private theorem not_mem_take {j k : Nat} (hd : order.Nodup) (hc : order[k]? = some c)
    (hjk : j ≤ k) : c ∉ order.take j := by
  intro hx
  obtain ⟨i, hi⟩ := List.getElem?_of_mem hx
  have hij := (List.getElem?_eq_some_iff.mp hi).1
  rw [List.length_take] at hij
  rw [List.getElem?_take_of_lt (by omega)] at hi
  have := (List.getElem?_inj (List.getElem?_eq_some_iff.mp hc).1 hd).mp (hc.trans hi.symm)
  omega

/-- The numbering of a nested order without repetitions is depth-first. -/
theorem depthFirst_ofOrder (hd : order.Nodup) (hin : ∀ b ∈ order, f.has b = true)
    (hnest : f.Nested roots order) : (ofOrder f roots order).DepthFirst := by
  have hblock : ∀ w, 0 < w → w ≤ (ofOrder f roots order).size →
      ∃ i b, w = i + 1 ∧ order[i]? = some b := by
    intro w pos hw
    rw [size_ofOrder] at hw
    exact ⟨w - 1, order[w - 1], by omega, List.getElem?_eq_getElem _⟩
  have hleads : ∀ u w, (ofOrder f roots order).Leads u w →
      ∃ i b, w = i + 1 ∧ order[i]? = some b ∧ f.Finds roots order u b := by
    intro u w h
    cases w with
    | zero => exact absurd h not_leads_zero
    | succ i =>
      obtain ⟨b, hb, hfind⟩ := (leads_succ_iff hd hin).mp h
      exact ⟨i, b, rfl, hb, hfind⟩
  refine ⟨?_, ?_, ?_, ?_, ?_, ?_⟩
  · intro u w h
    obtain ⟨i, b, rfl, hb, hfind⟩ := hleads u w h
    rw [size_ofOrder]
    exact hfind.le_length
  · intro u w h
    obtain ⟨i, b, rfl, _⟩ := hleads u w h
    exact Nat.succ_pos i
  · intro u w h
    obtain ⟨i, b, rfl, hb, _⟩ := hleads u w h
    rw [size_ofOrder]
    exact (List.getElem?_eq_some_iff.mp hb).1
  · intro w pos hw
    obtain ⟨i, b, rfl, hb⟩ := hblock w pos hw
    rw [parentOf_succ hb, leads_succ_iff hd hin]
    exact ⟨b, hb, parentNumber_finds hd hnest hb⟩
  · intro w pos hw
    obtain ⟨i, b, rfl, hb⟩ := hblock w pos hw
    rw [parentOf_succ hb]
    exact Nat.lt_succ_of_le (Survey.parentNumber_spec (f := f) hd hb).1
  · intro u v w h huv hvw
    obtain ⟨k, c, rfl, hc, hfind⟩ := hleads u w h
    have hk : k < order.length := (List.getElem?_eq_some_iff.mp hc).1
    obtain ⟨i, b, rfl, hb⟩ := hblock v (by omega) (by rw [size_ofOrder]; omega)
    rw [parentOf_succ hb]
    apply le_parentNumber hd hnest hb (by omega) hfind
    by_cases hik : i = k
    · subst hik
      rw [hb] at hc
      exact Or.inr (Option.some.inj hc).symm
    · exact Or.inl (not_mem_take hd hc (by omega))

/-- The numbering of a traversal of an in-range flow is depth-first. -/
theorem depthFirst_ofRoots (hf : f.InRange) (roots : List Block) :
    (ofRoots f roots none).DepthFirst :=
  depthFirst_ofOrder (f.nodup_preorder hf roots)
    (fun _ hb => ((f.mem_preorder hf).mp hb).has hf) (f.nested_preorder hf roots)

end Numbering
end Dominance
