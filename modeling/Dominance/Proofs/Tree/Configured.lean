import Dominance.Proofs.Tree.Check

/-!
# Configured constructions

The outcome of a configured construction from an in-range flow, in order of precedence: a complaint
about the roots, a complaint about the number of reached blocks, or the tree that is built without any
settings. The limit works by visiting one block more than it allows; a traversal that passes it is
refused, and one that does not has not been cut off. In words of 64 bits one more than the greatest
limit does not exist, and the cap stays at the limit itself. No graph has enough blocks to tell the
difference.
-/

namespace Dominance

/-- The number of blocks to visit at most, counted in 64-bit words: one past the limit, unless the
limit is the greatest word. That word is also the cap where there is no limit. -/
def Config.wordCap (c : Config) : Nat :=
  if c.maxBlocks = 0 then 2 ^ 64 - 1 else min (c.maxBlocks + 1) (2 ^ 64 - 1)

namespace Flow

/-- More than `k` blocks are reached. -/
def ReachesMoreThan (f : Flow) (roots : List Block) (k : Nat) : Prop :=
  ∃ bs : List Block, bs.Nodup ∧ k < bs.length ∧ ∀ b ∈ bs, f.Reaches roots b

variable {f : Flow} {roots : List Block} {k : Nat}

/-- A traversal has one visit for every reached block. -/
theorem reachesMoreThan_iff (hf : f.InRange) :
    f.ReachesMoreThan roots k ↔ k < (f.preorder roots).length := by
  constructor
  · rintro ⟨bs, hnodup, hk, hbs⟩
    have hsub : bs ⊆ f.preorder roots := fun b hb => (f.mem_preorder hf).mpr (hbs b hb)
    exact Nat.lt_of_lt_of_le hk (hnodup.length_le_of_subset hsub)
  · intro hk
    exact ⟨f.preorder roots, f.nodup_preorder hf roots, hk, fun b => (f.mem_preorder hf).mp⟩

/-- No more blocks are visited than the graph has. -/
theorem length_preorder_le (hf : f.InRange) (roots : List Block) :
    (f.preorder roots).length ≤ f.blockCount := by
  have hsub : f.preorder roots ⊆ (List.range f.blockCount).map Block.mk := by
    intro b hb
    have hlt : b.index < f.blockCount := of_decide_eq_true (((f.mem_preorder hf).mp hb).has hf)
    exact List.mem_map.mpr ⟨b.index, List.mem_range.mpr hlt, rfl⟩
  simpa using (f.nodup_preorder hf roots).length_le_of_subset hsub

end Flow

namespace Tree

variable {f : Flow} {roots : List Block} {c : Config}

/-- A traversal that is cut off one past the limit is refused exactly if more blocks are reached than
the limit allows. -/
theorem refuses_visitCap_iff (hf : f.InRange) :
    c.refuses (Numbering.ofRoots f roots c.visitCap).size = true ↔
      0 < c.maxBlocks ∧ f.ReachesMoreThan roots c.maxBlocks := by
  rw [Flow.reachesMoreThan_iff hf]
  by_cases hmax : c.maxBlocks = 0
  · simp [Config.refuses, hmax]
  · simp [Config.refuses, Config.visitCap, hmax, Numbering.ofRoots]

/-- Counting visits in words changes nothing for a graph whose blocks can be counted in words. -/
theorem ofRoots_wordCap (hf : f.InRange) (hwords : f.blockCount < 2 ^ 64) :
    Numbering.ofRoots f roots (some c.wordCap) = Numbering.ofRoots f roots c.visitCap := by
  have hlen := Nat.le_trans (f.length_preorder_le hf roots) (Nat.le_sub_one_of_lt hwords)
  have hall : ∀ k, 2 ^ 64 - 1 ≤ k → (f.preorder roots).take k = f.preorder roots :=
    fun k hk => List.take_of_length_le (Nat.le_trans hlen hk)
  unfold Config.wordCap Config.visitCap
  by_cases hmax : c.maxBlocks = 0
  · simp only [Numbering.ofRoots, if_pos hmax, hall _ (Nat.le_refl _)]
  · rcases Nat.le_total (c.maxBlocks + 1) (2 ^ 64 - 1) with hle | hge
    · rw [if_neg hmax, if_neg hmax, Nat.min_eq_left hle]
    · simp only [Numbering.ofRoots, if_neg hmax, Nat.min_eq_right hge, hall _ (Nat.le_refl _),
        hall _ hge]

/-- The first root that the graph does not have is complained about. -/
theorem rootError?_of_invalid {before after : List Block} {r : Block}
    (hroots : roots = before ++ r :: after) (hbefore : ∀ x ∈ before, f.has x = true)
    (hr : f.has r = false) : rootError? f roots = some (.invalidBlock r) := by
  have hfind : roots.find? (!f.has ·) = some r := by
    rw [List.find?_eq_some_iff_append]
    refine ⟨by simp [hr], before, after, hroots, fun x hx => ?_⟩
    simp [hbefore x hx]
  have hne : roots.isEmpty = false := by simp [hroots]
  simp [rootError?, hne, hfind]

/-- Roots that the graph has are accepted. -/
theorem rootError?_eq_none (hne : roots ≠ []) (hroots : ∀ r ∈ roots, f.has r = true) :
    rootError? f roots = none := by
  have hfind : roots.find? (!f.has ·) = none := by
    rw [List.find?_eq_none]
    intro r hr
    simp [hroots r hr]
  simp [rootError?, hne, hfind]

/-- What a configured construction from an in-range flow returns. If roots are checked, an empty list
is refused, and so is the first root that the graph does not have. Otherwise the limit is the only
complaint, made exactly if more blocks are reached than it allows; without it the outcome is the tree
that is built without settings. Caps that saturate at the greatest word give the same numbering. -/
theorem configured_outcome (f : Flow) (hf : f.InRange) (roots : List Block) (c : Config) :
    let outcome := (configured f roots c).value
    (c.checkRoots = true → roots = [] → outcome = .error .noRoots) ∧
    (c.checkRoots = true → ∀ before r after, roots = before ++ r :: after →
      (∀ x ∈ before, f.has x = true) → f.has r = false → outcome = .error (.invalidBlock r)) ∧
    ((c.checkRoots = true → roots ≠ [] ∧ ∀ r ∈ roots, f.has r = true) →
      (outcome = .error (.tooManyBlocks c.maxBlocks) ↔
        0 < c.maxBlocks ∧ f.ReachesMoreThan roots c.maxBlocks) ∧
      (¬(0 < c.maxBlocks ∧ f.ReachesMoreThan roots c.maxBlocks) →
        outcome = .ok (build f roots).value)) ∧
    (f.blockCount < 2 ^ 64 → Numbering.ofRoots f roots (some c.wordCap) =
      Numbering.ofRoots f roots c.visitCap) := by
  intro outcome
  have hvalue : outcome = _ := value_configured hf roots c
  refine ⟨fun hc hnil => ?_, fun hc before r after hsplit hbefore hr => ?_, fun hroots => ?_,
    ofRoots_wordCap hf⟩
  · rw [hvalue, if_pos hc, hnil]
    rfl
  · rw [hvalue, if_pos hc, rootError?_of_invalid hsplit hbefore hr]
  · have hnone : (if c.checkRoots then rootError? f roots else none) = none := by
      split
      · next hc => exact rootError?_eq_none (hroots hc).1 (hroots hc).2
      · rfl
    rw [hvalue, hnone, ← refuses_visitCap_iff hf]
    by_cases hlimit : c.refuses (Numbering.ofRoots f roots c.visitCap).size = true
    · simp [hlimit]
    · simp [hlimit]

/-- The checked list of roots names a block that does not exist. Unchecked, it reaches four blocks:
one too many for a limit of three, and not too many for a limit of four. -/
theorem configured_crossing :
    Flow.crossing.InRange ∧
      (configured Flow.crossing Flow.crossingRoots ⟨true, true, 3⟩).value =
        .error (.invalidBlock ⟨9⟩) ∧
      (configured Flow.crossing Flow.crossingRoots ⟨false, true, 3⟩).value =
        .error (.tooManyBlocks 3) ∧
      (configured Flow.crossing Flow.crossingRoots ⟨false, true, 4⟩).value =
        .ok (build Flow.crossing Flow.crossingRoots).value := by
  have h := configured_outcome Flow.crossing Flow.inRange_crossing Flow.crossingRoots
  refine ⟨Flow.inRange_crossing, ?_, ?_, ?_⟩
  · exact (h ⟨true, true, 3⟩).2.1 rfl [⟨1⟩, ⟨0⟩, ⟨1⟩] ⟨9⟩ [] rfl (by decide) rfl
  · refine ((h ⟨false, true, 3⟩).2.2.1 nofun).1.mpr ⟨by decide, ?_⟩
    rw [Flow.reachesMoreThan_iff Flow.inRange_crossing]
    decide +kernel
  · refine ((h ⟨false, true, 4⟩).2.2.1 nofun).2 ?_
    rw [Flow.reachesMoreThan_iff Flow.inRange_crossing]
    decide +kernel

end Tree
end Dominance
