import Mathlib.Data.List.Induction
import Dominance.Proofs.Tree.Order
import Dominance.Tree.Build

/-!
# The self-check accepts

An exact tree violates none of the invariants that the self-check tests, so a construction that
checks its result returns what it would return without checking.
-/

namespace Dominance
namespace Tree

variable {t : Tree} {f : Flow} {roots : List Block} {b d : Block} {bs : List Block} {w : Nat}

private theorem lastIndex_concat (bs : List Block) (b : Block) :
    lastIndex (bs ++ [b]) = (lastIndex bs).insert b bs.length := by
  simp [lastIndex, List.zipIdx_append]

/-- In a list without repetitions the last index of a block is its index. -/
theorem getElem?_lastIndex (hd : bs.Nodup) (hb : b ∈ bs) :
    (lastIndex bs)[b]? = some (bs.idxOf b) := by
  induction bs using List.reverseRecOn with
  | nil => cases hb
  | append_singleton bs c ih =>
    rw [lastIndex_concat, Std.ExtTreeMap.getElem?_insert]
    simp only [Std.LawfulEqOrd.compare_eq_iff_eq]
    have hparts := List.nodup_append.mp hd
    by_cases hcb : c = b
    · subst hcb
      have hnew : c ∉ bs := fun hmem => hparts.2.2 c hmem c (List.mem_singleton_self c) rfl
      rw [if_pos rfl, List.idxOf_append_of_notMem hnew, List.idxOf_cons_self]
      rfl
    · have hmem : b ∈ bs := by
        rw [List.mem_append, List.mem_singleton] at hb
        exact hb.resolve_right (Ne.symm hcb)
      rw [if_neg hcb, ih hparts.1 hmem, List.idxOf_append_of_mem hmem]

namespace Exact

variable (ht : t.Exact f roots)
include ht

/-- The topological order lists an immediate dominator before what hangs below it. -/
theorem idxOf_lt (h : t.idom? b = some d) : t.topological.idxOf d < t.topological.idxOf b := by
  have hb : b ∈ t.topological := ht.mem_topological.mpr (ht.reaches_of_idom? b d h)
  have hd : d ∈ t.topological := ht.mem_topological.mpr (ht.reaches_idom h)
  have hbl := List.idxOf_lt_length_iff.mpr hb
  have hdl := List.idxOf_lt_length_iff.mpr hd
  rcases Nat.lt_trichotomy (t.topological.idxOf d) (t.topological.idxOf b) with hlt | heq | hgt
  · exact hlt
  · have hget := List.getElem?_idxOf hd
    rw [heq, List.getElem?_idxOf hb] at hget
    cases hget
    exact absurd .refl (ht.not_above_idom h)
  · have hne := List.pairwise_iff_getElem.mp ht.pairwise_topological _ _ hbl hdl hgt
    rw [List.getElem_idxOf, List.getElem_idxOf] at hne
    exact absurd h hne

private theorem isRoot_iff : t.isRoot b = true ↔ b ∈ f.validRoots roots := by
  rw [isRoot, List.contains_iff_mem, ht.mem_roots_iff]

/-- A block that hangs somewhere is no root. -/
theorem isRoot_of_idom? (h : t.idom? b = some d) : t.isRoot b = false := by
  rw [← Bool.not_eq_true, ht.isRoot_iff]
  intro hb
  rw [ht.idom?_root hb] at h
  cases h

private theorem shared_getD (hb : t.blockAt? w = some b) : t.shared.getD w false = t.isShared b := by
  unfold isShared
  rw [(ht.position?_iff b w).mpr hb]

/-- The immediate dominator of a block that is not shared dominates its semidominator. -/
theorem dominates_semi {v : Nat} {s : Block} (hb : t.blockAt? w = some b) (h : t.idom? b = some d)
    (hs : t.isShared b = false) (hv : t.semi[w]? = some v) (hvs : t.blockAt? v = some s) :
    t.dominates d s = true := by
  rcases ht.semi_spec b w hb with ⟨v', s', hv', _, hvs', hdom⟩
  rw [hv] at hv'
  cases hv'
  rw [hvs] at hvs'
  cases hvs'
  have hreach := ht.reaches_of_blockAt? hvs
  rcases ht.placed_up h with ⟨hshared, _, _⟩ | ⟨_, himm⟩
  · rw [hs] at hshared
    cases hshared
  · exact ht.dominates_iff_above.mpr ⟨hreach, ht.above_of_dominates hreach (hdom d himm.1)⟩

/-- Shared blocks hang below roots. -/
theorem idom?_of_isShared (hs : t.isShared b = true) :
    ∃ r ∈ f.validRoots roots, t.idom? b = some r := (ht.placed_shared hs).2.1

/-- The semidominator of a block is the block at the position that the table has for it. -/
theorem semidominator?_eq {v : Nat} {s : Block} (hb : t.blockAt? w = some b)
    (hv : t.semi[w]? = some v) (hvs : t.blockAt? v = some s) : t.semidominator? b = some s := by
  unfold semidominator?
  rw [(ht.position?_iff b w).mpr hb]
  change (t.semi[w]?.bind fun v => t.blockAt? v) = some s
  rw [hv]
  exact hvs

/-- No position violates an invariant. -/
theorem faultAt_eq_none (hb : t.blockAt? w = some b) : t.faultAt w b = none := by
  rcases ht.semi_spec b w hb with ⟨v, s, hv, hvw, hvs, _⟩
  have hsemi : t.semi.getD w 0 = v := by
    rw [Array.getD_eq_getD_getElem?, hv]
    rfl
  unfold faultAt
  rw [hsemi, if_neg (Nat.not_lt.mpr hvw)]
  cases h : t.idom? b with
  | none =>
    have hroot := (ht.placed_top (ht.reaches_of_blockAt? hb) h).1
    exact if_pos (ht.isRoot_iff.mpr hroot)
  | some d =>
    rcases ht.idom_before b d w hb h with ⟨j, hj, hjw⟩
    have hpos : t.position? d = some j := (ht.position?_iff d j).mpr hj
    simp only [ht.isRoot_of_idom? h, hpos, Option.any_some, hjw, decide_true, Bool.not_true,
      Bool.false_eq_true, if_false, ht.shared_getD hb, hvs]
    rcases ht.placed_up h with ⟨hs, hroot, _⟩ | ⟨hs, _⟩
    · rw [if_pos hs, if_pos (ht.isRoot_iff.mpr hroot)]
    · rw [if_neg (by rw [hs]; exact Bool.false_ne_true), if_pos (ht.dominates_semi hb h hs hv hvs)]

private theorem orderLengthFault_eq_none : t.orderLengthFault = none := if_pos ht.length_topological

/-- The topological order inverts no block and its immediate dominator. -/
theorem orderFault_eq_none : t.orderFault = none := by
  unfold orderFault
  rw [List.findSome?_eq_none_iff]
  rintro ⟨b, d⟩ hmem
  have h : t.idom? b = some d := Std.ExtTreeMap.mem_toList_iff_getElem?_eq_some.mp hmem
  have hb : b ∈ t.topological := ht.mem_topological.mpr (ht.reaches_of_idom? b d h)
  have hd : d ∈ t.topological := ht.mem_topological.mpr (ht.reaches_idom h)
  simp only [getElem?_lastIndex ht.nodup_topological hb, getElem?_lastIndex ht.nodup_topological hd]
  exact if_pos (ht.idxOf_lt h)

/-- The self-check accepts an exact tree. -/
theorem verify_eq_ok : t.verify = .ok () := by
  unfold verify fault?
  rw [List.findSome?_eq_none_iff.mpr]
  · rw [ht.orderLengthFault_eq_none, ht.orderFault_eq_none]
  · rintro ⟨b, w⟩ hmem
    rw [List.mem_zipIdx_iff_getElem?, Array.getElem?_toList] at hmem
    exact ht.faultAt_eq_none hmem

end Exact

/-- A traversal that is not refused was not cut off. -/
theorem ofRoots_visitCap {c : Config}
    (h : ¬c.refuses (Numbering.ofRoots f roots c.visitCap).size = true) :
    Numbering.ofRoots f roots c.visitCap = Numbering.ofRoots f roots none := by
  unfold Config.visitCap at h ⊢
  split
  · rfl
  · next hmax =>
    rw [if_neg hmax] at h
    have hlen : (f.preorder roots).length ≤ c.maxBlocks := by
      simp [Config.refuses, Numbering.ofRoots] at h
      omega
    have htake : (f.preorder roots).take (c.maxBlocks + 1) = f.preorder roots :=
      List.take_of_length_le (by omega)
    simp only [Numbering.ofRoots, htake]

/-- A configured construction complains about its roots or about the number of blocks, or returns the
tree; checking the result makes no difference. -/
theorem value_configured (hf : f.InRange) (roots : List Block) (c : Config) :
    (configured f roots c).value =
      match if c.checkRoots then rootError? f roots else none with
      | some e => .error e
      | none =>
        if c.refuses (Numbering.ofRoots f roots c.visitCap).size
        then .error (.tooManyBlocks c.maxBlocks) else .ok (build f roots).value := by
  have hverify : (ofNumbering roots (Numbering.ofRoots f roots none)).value.verify = .ok () :=
    (exact_build hf roots).verify_eq_ok
  unfold configured
  cases (if c.checkRoots then rootError? f roots else none) with
  | some e => rfl
  | none =>
    by_cases hr : c.refuses (Numbering.ofRoots f roots c.visitCap).size = true
    · simp only [Logged.value_bind, if_pos hr, Logged.value_pure]
    · simp only [Logged.value_bind, if_neg hr]
      rw [ofRoots_visitCap hr]
      split
      · rw [hverify]
        rfl
      · rfl

private theorem rootError?_ne_malformed (fault : Fault) (site : Option Site) :
    rootError? f roots ≠ some (.malformed fault site) := by
  unfold rootError?
  intro h
  split at h
  · cases h
  · rcases Option.map_eq_some_iff.mp h with ⟨b, _, hb⟩
    cases hb

/-- The self-check accepts every tree built from an in-range flow. Semidominators are not numbered
after their blocks and immediate dominators are numbered before them, shared blocks hang below roots,
other blocks hang below a dominator of their semidominator, and the topological order is complete and
inverts nothing. So a construction that checks its result never calls it malformed; it returns what
it returns without the check. -/
theorem verify_build (f : Flow) (hf : f.InRange) (roots : List Block) :
    let t := (build f roots).value
    t.verify = .ok () ∧
    (∀ w b, t.blockAt? w = some b →
      (∃ v, t.semi[w]? = some v ∧ v ≤ w) ∧
      (∀ d, t.idom? b = some d → ∃ v, t.position? d = some v ∧ v < w) ∧
      (t.isShared b = true → ∃ r ∈ t.roots, t.idom? b = some r) ∧
      (t.isShared b = false → b ∉ roots →
        ∃ d s, t.idom? b = some d ∧ t.semidominator? b = some s ∧ t.dominates d s = true)) ∧
    (t.topological.length = t.size ∧
      ∀ b d, t.idom? b = some d → b ∈ t.topological ∧ d ∈ t.topological ∧
        t.topological.idxOf d < t.topological.idxOf b) ∧
    (∀ (c : Config) (fault : Fault) (site : Option Site),
      (configured f roots c).value ≠ .error (.malformed fault site)) ∧
    (∀ c : Config, (configured f roots { c with checkResult := true }).value =
      (configured f roots { c with checkResult := false }).value) := by
  intro t
  have ht : t.Exact f roots := exact_build hf roots
  refine ⟨ht.verify_eq_ok, fun w b hb => ?_, ⟨ht.length_topological, fun b d h => ?_⟩,
    fun c fault site => ?_, fun c => ?_⟩
  · rcases ht.semi_spec b w hb with ⟨v, s, hv, hvw, hvs, _⟩
    refine ⟨⟨v, hv, hvw⟩, fun d h => ?_, fun hs => ?_, fun hs hr => ?_⟩
    · rcases ht.idom_before b d w hb h with ⟨j, hj, hjw⟩
      exact ⟨j, (ht.position?_iff d j).mpr hj, hjw⟩
    · rcases ht.idom?_of_isShared hs with ⟨r, hr, h⟩
      exact ⟨r, (ht.mem_roots_iff r).mpr hr, h⟩
    · cases h : t.idom? b with
      | none =>
        have hmem := (ht.placed_top (ht.reaches_of_blockAt? hb) h).1
        exact absurd (List.mem_filter.mp hmem).1 hr
      | some d => exact ⟨d, s, rfl, ht.semidominator?_eq hb hv hvs, ht.dominates_semi hb h hs hv hvs⟩
  · exact ⟨ht.mem_topological.mpr (ht.reaches_of_idom? b d h),
      ht.mem_topological.mpr (ht.reaches_idom h), ht.idxOf_lt h⟩
  · rw [value_configured hf]
    split
    · next e he =>
      intro h
      cases h
      split at he
      · exact rootError?_ne_malformed fault site he
      · cases he
    · split
      · intro h
        cases h
      · intro h
        cases h
  · rw [value_configured hf, value_configured hf]
    rfl

/-- The block at which two roots meet is shared and hangs below a root; the block after it is not shared,
and its immediate dominator dominates its semidominator. -/
theorem verify_crossing :
    let t := (build Flow.crossing Flow.crossingRoots).value
    Flow.crossing.InRange ∧ t.verify = .ok () ∧
      t.isShared ⟨2⟩ = true ∧ (∃ r ∈ t.roots, t.idom? ⟨2⟩ = some r) ∧
      t.isShared ⟨3⟩ = false ∧
      (∃ d s, t.idom? ⟨3⟩ = some d ∧ t.semidominator? ⟨3⟩ = some s ∧ t.dominates d s = true) ∧
      t.topological.idxOf ⟨2⟩ < t.topological.idxOf ⟨3⟩ := by
  intro t
  obtain ⟨hok, hblocks, ⟨_, horder⟩, _⟩ :=
    verify_build Flow.crossing Flow.inRange_crossing Flow.crossingRoots
  have hshared : t.isShared ⟨2⟩ = true := by decide +kernel
  have halone : t.isShared ⟨3⟩ = false := by decide +kernel
  have hbelow : t.idom? ⟨3⟩ = some ⟨2⟩ := by decide +kernel
  obtain ⟨_, _, hroot, _⟩ := hblocks 1 ⟨2⟩ (by decide +kernel)
  obtain ⟨_, _, _, hsemi⟩ := hblocks 2 ⟨3⟩ (by decide +kernel)
  exact ⟨Flow.inRange_crossing, hok, hshared, hroot hshared, halone, hsemi halone (by decide),
    (horder ⟨3⟩ ⟨2⟩ hbelow).2.2⟩

end Tree
end Dominance
