import Dominance.Proofs.Tree.Check

/-!
# Semidominators by routes

A virtual entry stands above all blocks and leads to the roots of the graph. A route leads from it, or
from a block, to a block along at least one edge; it is a detour if every block that it passes is
numbered after its last one. The semidominator of a block is the first number from which a detour leads
to it. Detours of the flow are detours of its numbers, so this is what the passes compute.
-/

namespace Dominance
namespace Flow

/-- A block leads to its successors, and the virtual entry, which is `none`, to the roots of the
graph. -/
def Enters (f : Flow) (roots : List Block) : Option Block → Block → Prop
  | none, b => b ∈ f.validRoots roots
  | some a, b => b ∈ f.successors a

/-- A route of at least one edge, with the blocks between its two ends in order. -/
inductive Route (f : Flow) (roots : List Block) (v : Option Block) : List Block → Block → Prop where
  | edge {b : Block} (h : f.Enters roots v b) : Route f roots v [] b
  | step {p : List Block} {a b : Block} (r : Route f roots v p a) (h : b ∈ f.successors a) :
    Route f roots v (p ++ [a]) b

end Flow

namespace Numbering

/-- Both blocks have numbers, and that of `b` is the smaller one. -/
def Before (n : Numbering) (b x : Block) : Prop :=
  ∃ i j, n.number? (some b) = some i ∧ n.number? (some x) = some j ∧ i < j

end Numbering

namespace Flow

/-- A route to `b` on which every block between the two ends is numbered after `b`. -/
def Detour (f : Flow) (roots : List Block) (v : Option Block) (b : Block) : Prop :=
  ∃ p, f.Route roots v p b ∧ ∀ x ∈ p, (f.numbering roots).Before b x

/-- Of all that have a number and a detour to `b`, the semidominator has the least number. -/
def Semidominates (f : Flow) (roots : List Block) (v : Option Block) (b : Block) : Prop :=
  f.Detour roots v b ∧ ∃ s, (f.numbering roots).number? v = some s ∧
    ∀ u k, f.Detour roots u b → (f.numbering roots).number? u = some k → s ≤ k

end Flow

namespace Numbering

variable {f : Flow} {roots p : List Block} {u v : Option Block} {b : Block} {k s w : Nat}
  {P : Nat → Prop}

section

variable (hf : f.InRange)
include hf

/-- Leading from a number to a number is entering the block of that number. -/
theorem leads_iff_enters (hv : (f.numbering roots).number? v = some k)
    (hb : (f.numbering roots).block? w = some b) :
    (f.numbering roots).Leads k w ↔ f.Enters roots v b := by
  rw [leads_iff hf hb]
  cases v with
  | none =>
    cases hv
    simp [Flow.Enters, block?]
  | some a =>
    rw [(indexed_numbering hf roots).number?_some_iff] at hv
    have hk : k ≠ 0 := Nat.ne_of_gt (block?_bounds hv).1
    simp [Flow.Enters, hv, hk]

/-- A walk of numbers is a route through the blocks of these numbers. -/
theorem exists_route (h : (f.numbering roots).Via P k w)
    (hv : (f.numbering roots).number? v = some k) (hb : (f.numbering roots).block? w = some b) :
    ∃ p, f.Route roots v p b ∧ ∀ x ∈ p, ∃ j, (f.numbering roots).block? j = some x ∧ P j := by
  have hn := depthFirst_numbering hf roots
  induction h generalizing b with
  | edge h => exact ⟨[], .edge ((leads_iff_enters hf hv hb).mp h), List.forall_mem_nil _⟩
  | @step x w h hx hxw ih =>
    -- Nothing leads to the virtual entry, so a walk passes blocks only.
    have pos : 0 < x := by
      cases h with
      | edge h => exact hn.target_pos _ _ h
      | step _ _ h => exact hn.target_pos _ _ h
    obtain ⟨a, ha⟩ := exists_block pos (hn.source_le x w hxw)
    obtain ⟨p, hp, hall⟩ := ih ha
    have hab := (leads_iff_enters hf ((indexed_numbering hf roots).number?_some_iff.mpr ha) hb).mp hxw
    refine ⟨p ++ [a], .step hp hab, ?_⟩
    rw [List.forall_mem_append, List.forall_mem_singleton]
    exact ⟨hall, x, ha, hx⟩

/-- A route through blocks is a walk of their numbers. -/
theorem via_of_route (h : f.Route roots v p b) (hv : (f.numbering roots).number? v = some k)
    (hb : (f.numbering roots).block? w = some b)
    (hp : ∀ x ∈ p, ∃ j, (f.numbering roots).block? j = some x ∧ P j) :
    (f.numbering roots).Via P k w := by
  induction h generalizing w with
  | edge h => exact .edge ((leads_iff_enters hf hv hb).mpr h)
  | step _ h ih =>
    rw [List.forall_mem_append, List.forall_mem_singleton] at hp
    obtain ⟨hp, j, hj, hPj⟩ := hp
    have hlead := (leads_iff_enters hf ((indexed_numbering hf roots).number?_some_iff.mpr hj) hb).mpr h
    exact .step (ih hj hp) hPj hlead

private theorem before_iff {x : Block} (hb : (f.numbering roots).block? w = some b) :
    (f.numbering roots).Before b x ↔
      ∃ j, (f.numbering roots).block? j = some x ∧ w < j := by
  unfold Before
  simp only [(indexed_numbering hf roots).number?_some_iff]
  constructor
  · rintro ⟨i, j, hi, hj, hij⟩
    rw [block?_inj hf hb hi]
    exact ⟨j, hj, hij⟩
  · rintro ⟨j, hj, hwj⟩
    exact ⟨w, j, hb, hj, hwj⟩

/-- Detours of numbers are detours of blocks. -/
theorem detour_iff_flow (hv : (f.numbering roots).number? v = some k)
    (hb : (f.numbering roots).block? w = some b) :
    (f.numbering roots).Detour k w ↔ f.Detour roots v b := by
  unfold Flow.Detour
  simp only [before_iff hf hb]
  constructor
  · intro h
    exact exists_route hf h hv hb
  · rintro ⟨p, hp, hall⟩
    exact via_of_route hf hp hv hb hall

/-- What has the number of the semidominator, and nothing else, is the semidominator by routes. -/
theorem semidominates_iff (hv : (f.numbering roots).number? v = some s)
    (hb : (f.numbering roots).block? w = some b) :
    f.Semidominates roots v b ↔ s = (f.numbering roots).semi w := by
  have hn := depthFirst_numbering hf roots
  obtain ⟨pos, hle⟩ := block?_bounds hb
  have hlt := hn.semi_lt pos hle
  constructor
  · rintro ⟨hd, s', hs', hleast⟩
    obtain rfl : s = s' := Option.some.inj (hv.symm.trans hs')
    apply Nat.le_antisymm
    · have hu := (indexed_numbering hf roots).number?_block? (k := (f.numbering roots).semi w)
        (by omega)
      exact hleast _ _ ((detour_iff_flow hf hu hb).mp (hn.detour_semi pos hle)) hu
    · exact semi_le ((detour_iff_flow hf hv hb).mpr hd)
  · rintro rfl
    refine ⟨(detour_iff_flow hf hv hb).mp (hn.detour_semi pos hle), _, hv, ?_⟩
    intro u k hd hu
    exact semi_le ((detour_iff_flow hf hu hb).mpr hd)

end

end Numbering

namespace Sweep

/-- The passes leave an entry for every number. -/
theorem getElem?_semi_run {n : Numbering} {w : Nat} (hn : n.DepthFirst) (pos : 0 < w)
    (hw : w ≤ n.size) : (run n).forest.semi[w]? = some (n.semi w) := by
  have hsize : (run n).forest.semi.size = n.size + 1 := (swept_backward hn).linked.semi_size
  have hsemi := semiOf_run hn pos hw
  rw [Forest.semiOf, Array.getD_eq_getD_getElem?] at hsemi
  rw [Array.getElem?_eq_getElem (by omega)] at hsemi ⊢
  exact congrArg some hsemi

end Sweep

namespace Tree

variable {f : Flow} {roots : List Block} {b d : Block} {i : Nat}

section

variable (hf : f.InRange)
include hf

/-- A root has the virtual entry as its semidominator. -/
theorem semi_root (hb : (f.numbering roots).block? (i + 1) = some b)
    (hr : b ∈ f.validRoots roots) : (f.numbering roots).semi (i + 1) = 0 :=
  Nat.le_zero.mp (Numbering.semi_le (.edge ((Numbering.leads_iff hf hb).mpr (Or.inl ⟨rfl, hr⟩))))

/-- The tree stores a position for the semidominator of every number. -/
theorem semi_position (hb : (f.numbering roots).block? (i + 1) = some b) :
    (build f roots).value.semi[i]? = some (match (f.numbering roots).semi (i + 1) with
      | 0 => if roots.contains b then i else (heads (f.numbering roots)).getD i 0
      | v + 1 => v) := by
  have hn := Numbering.depthFirst_numbering hf roots
  obtain ⟨pos, hle⟩ := Numbering.block?_bounds hb
  rw [← Sweep.semiOf_run hn pos hle]
  exact semi_ofSweep hb

/-- A root stands for its own semidominator. -/
theorem semidominator?_root (hb : (f.numbering roots).block? (i + 1) = some b)
    (hr : b ∈ f.validRoots roots) : (build f roots).value.semidominator? b = some b := by
  have hsemi := semi_position hf hb
  have hmem : roots.contains b = true := List.contains_iff_mem.mpr (List.mem_filter.mp hr).1
  rw [semi_root hf hb hr] at hsemi
  simp only [if_pos hmem] at hsemi
  exact (exact_build hf roots).semidominator?_eq hb hsemi hb

/-- A semidominator that is a block stands for itself. -/
theorem semidominator?_block (hb : (f.numbering roots).block? (i + 1) = some b)
    (hd : (f.numbering roots).block? ((f.numbering roots).semi (i + 1)) = some d) :
    (build f roots).value.semidominator? b = some d := by
  have hsemi := semi_position hf hb
  cases hs : (f.numbering roots).semi (i + 1) with
  | zero =>
    rw [hs] at hd
    cases hd
  | succ v =>
    rw [hs] at hd hsemi
    exact (exact_build hf roots).semidominator?_eq hb hsemi hd

/-- Where the semidominator of another block is the virtual entry, the head of the depth-first tree
stands for it. -/
theorem semidominator?_entry (hb : (f.numbering roots).block? (i + 1) = some b) (hr : b ∉ roots)
    (hs : (f.numbering roots).semi (i + 1) = 0) : ∃ r ∈ f.validRoots roots,
      (build f roots).value.HeadOf r b ∧ (build f roots).value.semidominator? b = some r := by
  have hn := Numbering.depthFirst_numbering hf roots
  obtain ⟨_, hle⟩ := Numbering.block?_bounds hb
  have hhead := head_heads hn hle
  obtain ⟨r, hr'⟩ := Numbering.exists_block (Nat.succ_pos _) (hn.ancestor_le_size hhead.1 hle)
  obtain ⟨hmem, hof⟩ := headOf_build hf hhead hr' hb
  have hsemi := semi_position hf hb
  rw [hs] at hsemi
  simp only [if_neg (fun hc => hr (List.contains_iff_mem.mp hc))] at hsemi
  exact ⟨r, hmem, hof, (exact_build hf roots).semidominator?_eq hb hsemi hr'⟩

end

/-- The passes find the semidominators of an in-range flow: every reached block has exactly one
semidominator by routes, and the entry for the block is its number. The tree built from the flow names a
root as its own semidominator, another block's semidominator where that is a block, and the root at the
head of its depth-first tree where it is the virtual entry. -/
theorem semidominators_build (f : Flow) (hf : f.InRange) (roots : List Block) :
    let n := f.numbering roots
    let t := (build f roots).value
    ∀ b, f.Reaches roots b → ∃ w v s, n.number? (some b) = some w ∧ n.number? v = some s ∧
      f.Semidominates roots v b ∧ (∀ u, f.Semidominates roots u b → u = v) ∧
      (Sweep.run n).forest.semi[w]? = some s ∧
      (b ∈ roots → t.semidominator? b = some b) ∧
      (b ∉ roots → ∀ d, v = some d → t.semidominator? b = some d) ∧
      (b ∉ roots → v = none →
        ∃ r ∈ f.validRoots roots, t.HeadOf r b ∧ t.semidominator? b = some r) := by
  intro n t b hb
  have hn : n.DepthFirst := Numbering.depthFirst_numbering hf roots
  have hx : n.Indexed := Numbering.indexed_numbering hf roots
  obtain ⟨w, hw⟩ := (Numbering.exists_number_iff hf).mpr hb
  obtain ⟨pos, hle⟩ : 0 < w ∧ w ≤ n.size := Numbering.block?_bounds hw
  have hlt := hn.semi_lt pos hle
  have hv : n.number? (n.block? (n.semi w)) = some (n.semi w) := hx.number?_block? (by omega)
  generalize n.block? (n.semi w) = v at hv
  obtain ⟨i, rfl⟩ : ∃ i, w = i + 1 := ⟨w - 1, by omega⟩
  refine ⟨i + 1, v, n.semi (i + 1), hx.number?_some_iff.mpr hw, hv,
    (Numbering.semidominates_iff hf hv hw).mpr rfl, ?_, Sweep.getElem?_semi_run hn pos hle, ?_, ?_, ?_⟩
  · intro u hsemi
    obtain ⟨k, hu, _⟩ := hsemi.2
    rw [(Numbering.semidominates_iff hf hu hw).mp hsemi] at hu
    exact hx.number?_inj hu hv
  · intro hr
    exact semidominator?_root hf hw (Flow.mem_validRoots_of_reaches hf hb hr)
  · rintro _ d rfl
    exact semidominator?_block hf hw (hx.number?_some_iff.mp hv)
  · rintro hr rfl
    exact semidominator?_entry hf hw hr (Option.some.inj hv).symm

/-- The block at which two roots meet has the virtual entry as its semidominator, and the root that was
visited first stands for it. -/
theorem semidominators_crossing :
    Flow.crossing.InRange ∧ Flow.crossing.Reaches Flow.crossingRoots ⟨2⟩ ∧
      Flow.crossing.Semidominates Flow.crossingRoots none ⟨2⟩ ∧
      (build Flow.crossing Flow.crossingRoots).value.HeadOf ⟨1⟩ ⟨2⟩ ∧
      (build Flow.crossing Flow.crossingRoots).value.semidominator? ⟨2⟩ = some ⟨1⟩ := by
  obtain ⟨w, v, s, hw, hv, hsemi, _, hs, _, _, hentry⟩ :=
    semidominators_build Flow.crossing Flow.inRange_crossing Flow.crossingRoots ⟨2⟩
      Flow.reaches_crossing
  have hnumber : (Flow.crossing.numbering Flow.crossingRoots).number? (some ⟨2⟩) = some 2 := by
    decide +kernel
  have hzero : (Sweep.run (Flow.crossing.numbering Flow.crossingRoots)).forest.semi[2]? = some 0 := by
    decide +kernel
  have hone : (build Flow.crossing Flow.crossingRoots).value.semidominator? ⟨2⟩ = some ⟨1⟩ := by
    decide +kernel
  rw [hnumber] at hw
  cases hw
  rw [hzero] at hs
  cases hs
  obtain rfl : v = none := (Numbering.indexed_numbering Flow.inRange_crossing _).number?_inj hv rfl
  obtain ⟨r, _, hhead, hr⟩ := hentry (by decide) rfl
  rw [hone] at hr
  cases hr
  exact ⟨Flow.inRange_crossing, Flow.reaches_crossing, hsemi, hhead, hone⟩

end Tree
end Dominance
