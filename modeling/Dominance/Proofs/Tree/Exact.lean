import Dominance.Proofs.Correspondence
import Dominance.Proofs.Sweep
import Dominance.Proofs.Tree.Places
import Dominance.Tree.Build

/-!
# Exact trees

A tree is exact for a flow and its roots if its tables say what walks of the flow say: which blocks
are reached, which of them are roots, and for every other one either its immediate dominator or that
it has none and which root stands in for it. Trees that are built are exact. What is proved about
chains, orders, frontiers and the self-check is proved of exact trees.
-/

namespace Dominance

namespace Flow

/-- The block `d` is the nearest dominator of `b` other than `b`: its dominators are the strict
dominators of `b`. -/
def ImmediatelyDominates (f : Flow) (roots : List Block) (d b : Block) : Prop :=
  f.StrictlyDominates roots d b ∧ ∀ a, f.Dominates roots a d ↔ f.StrictlyDominates roots a b

variable {f : Flow} {roots : List Block} {a b d : Block}

/-- A root of the graph has no dominator but itself. -/
theorem eq_of_dominates_root (hb : b ∈ f.validRoots roots) (h : f.Dominates roots a b) : a = b :=
  List.mem_singleton.mp (h b hb [b] (.single b))

/-- A root that is reached is a root of the graph. -/
theorem mem_validRoots_of_reaches (hf : f.InRange) (hb : f.Reaches roots b) (hr : b ∈ roots) :
    b ∈ f.validRoots roots :=
  List.mem_filter.mpr ⟨hr, hb.has hf⟩

/-- Two blocks lead to the entry of one loop. -/
def crossing : Flow := ofLists 4 #[[⟨2⟩], [⟨2⟩], [⟨3⟩], [⟨2⟩]]

/-- Both blocks that lead into the loop, one of them twice, and a block that does not exist. -/
def crossingRoots : List Block := [⟨1⟩, ⟨0⟩, ⟨1⟩, ⟨9⟩]

/-- All edges of the crossing lead to its blocks. -/
theorem inRange_crossing : crossing.InRange := inRange_ofLists (by decide)

/-- Either root leads to the entry of the loop. -/
theorem walk_crossing {r : Nat} (hr : r < 2) : crossing.Walk ⟨r⟩ [⟨r⟩, ⟨2⟩] ⟨2⟩ := by
  have hstep : (⟨2⟩ : Block) ∈ crossing.successors ⟨r⟩ := by
    rcases r with _ | _ | r
    · exact List.mem_singleton_self _
    · exact List.mem_singleton_self _
    · omega
  exact .step hstep (.single ⟨2⟩)

/-- The first two blocks are roots of the crossing. -/
theorem mem_crossingRoots {r : Nat} (hr : r < 2) : ⟨r⟩ ∈ crossing.validRoots crossingRoots := by
  rcases r with _ | _ | r
  · decide
  · decide
  · omega

/-- The entry of the loop is reached. -/
theorem reaches_crossing : crossing.Reaches crossingRoots ⟨2⟩ :=
  ⟨⟨0⟩, mem_crossingRoots (by omega), _, walk_crossing (by omega)⟩

/-- The rest of the loop is reached. -/
theorem reaches_crossing_loop : crossing.Reaches crossingRoots ⟨3⟩ :=
  reaches_crossing.successor (List.mem_singleton_self _)

/-- The entry of the loop is dominated by itself only, since either root leads to it. -/
theorem eq_of_dominates_crossing (h : crossing.Dominates crossingRoots a ⟨2⟩) : a = ⟨2⟩ := by
  have h0 := h ⟨0⟩ (mem_crossingRoots (by omega)) _ (walk_crossing (by omega))
  have h1 := h ⟨1⟩ (mem_crossingRoots (by omega)) _ (walk_crossing (by omega))
  simp only [List.mem_cons, List.not_mem_nil, or_false] at h0 h1
  rcases h0 with rfl | h0
  · rcases h1 with h1 | h1
    · cases h1
    · cases h1
  · exact h0

end Flow

namespace Numbering

variable {f : Flow} {roots : List Block} {a b d : Block} {v w : Nat}

/-- Positions and blocks of an in-range flow determine each other. -/
theorem indexed_numbering (hf : f.InRange) (roots : List Block) :
    (f.numbering roots).Indexed := fun _ _ => position_iff hf

/-- A block whose number has the virtual entry as its immediate dominator is dominated by itself
only. -/
theorem eq_of_isIdom_zero (hf : f.InRange) (hb : (f.numbering roots).block? w = some b)
    (h : (f.numbering roots).IsIdom 0 w) (hab : f.Dominates roots a b) : a = b := by
  have hra := hab.reaches (reaches_of_block? hf hb)
  obtain ⟨v, hv⟩ := (exists_number_iff hf).mpr hra
  by_cases hvw : v = w
  · rw [hvw, hb] at hv
    exact (Option.some.inj hv).symm
  · have h0 := (h v).mp ⟨(dominates_iff_flow hf hv hb).mpr hab, hvw⟩
    exact absurd (.entry (Nat.ne_of_gt (block?_bounds hv).1)) h0

/-- Immediate dominance of numbers is immediate dominance of blocks. -/
theorem immediatelyDominates_of_isIdom (hf : f.InRange)
    (hd : (f.numbering roots).block? v = some d) (hb : (f.numbering roots).block? w = some b)
    (h : (f.numbering roots).IsIdom v w) : f.ImmediatelyDominates roots d b := by
  have hne : ∀ {x a}, (f.numbering roots).block? x = some a → (x ≠ w ↔ a ≠ b) := by
    intro x a hx
    rw [not_iff_not]
    constructor
    · rintro rfl
      exact Option.some.inj (hx.symm.trans hb)
    · rintro rfl
      exact block?_inj hf hx hb
  refine ⟨⟨(hne hd).mp h.dominates.2, (dominates_iff_flow hf hd hb).mp h.dominates.1⟩, ?_⟩
  intro a
  constructor
  · intro had
    obtain ⟨x, hx⟩ := (exists_number_iff hf).mpr (had.reaches (reaches_of_block? hf hd))
    have := (h x).mpr ((dominates_iff_flow hf hx hd).mpr had)
    exact ⟨(hne hx).mp this.2, (dominates_iff_flow hf hx hb).mp this.1⟩
  · rintro ⟨hab, had⟩
    obtain ⟨x, hx⟩ := (exists_number_iff hf).mpr (had.reaches (reaches_of_block? hf hb))
    apply (dominates_iff_flow hf hx hd).mp
    exact (h x).mp ⟨(dominates_iff_flow hf hx hb).mpr had, (hne hx).mpr hab⟩

end Numbering

namespace Tree

/-- The block `r` is where the parents of a block in the depth-first forest end. -/
inductive HeadOf (t : Tree) (r : Block) : Block → Prop where
  | head (h : t.parent? r = none) : HeadOf t r r
  | up {b p : Block} (h : t.parent? b = some p) (hp : HeadOf t r p) : HeadOf t r b

/-- What a tree says about a reached block, if it says what walks say. -/
inductive Placed (f : Flow) (roots : List Block) (t : Tree) (b : Block) : Prop where
  /-- A root hangs nowhere. -/
  | root (mem : b ∈ f.validRoots roots) (free : t.idom? b = none) (plain : t.isShared b = false)
  /-- A block without dominators hangs below the root at the head of its depth-first tree. -/
  | shared (r : Block) (other : b ∉ roots) (mem : r ∈ f.validRoots roots) (head : t.HeadOf r b)
    (idom : t.idom? b = some r) (shared : t.isShared b = true)
    (alone : ∀ a, f.Dominates roots a b → a = b)
  /-- Any other block hangs below its immediate dominator. -/
  | below (d : Block) (other : b ∉ roots) (idom : t.idom? b = some d)
    (plain : t.isShared b = false) (nearest : f.ImmediatelyDominates roots d b)

/-- The tables of a tree say what the walks of a flow say. -/
structure Exact (f : Flow) (roots : List Block) (t : Tree) : Prop where
  contains_iff : ∀ b, t.contains b = true ↔ f.Reaches roots b
  mem_roots_iff : ∀ b, b ∈ t.roots ↔ b ∈ f.validRoots roots
  position?_iff : ∀ b i, t.position? b = some i ↔ t.blockAt? i = some b
  successors_eq : ∀ b, f.Reaches roots b → t.successors b = f.successors b
  targets_size : t.targets.size = t.size
  placed : ∀ b, f.Reaches roots b → t.Placed f roots b
  reaches_of_idom? : ∀ b d, t.idom? b = some d → f.Reaches roots b
  idom_before : ∀ b d i, t.blockAt? i = some b → t.idom? b = some d →
    ∃ j, t.blockAt? j = some d ∧ j < i
  mem_children_iff : ∀ d i c, t.blockAt? d = some c →
    (i ∈ (t.children.getD d #[]).toList ↔ ∃ b, t.blockAt? i = some b ∧ t.idom? b = some c)
  children_ascending : ∀ d, d < t.size → (t.children.getD d #[]).toList.Pairwise (· < ·)
  semi_spec : ∀ b i, t.blockAt? i = some b → ∃ v s, t.semi[i]? = some v ∧ v ≤ i ∧
    t.blockAt? v = some s ∧ ∀ a, f.StrictlyDominates roots a b → f.Dominates roots a s

/-- The tree that is built from a flow and its roots. -/
theorem value_build (f : Flow) (roots : List Block) :
    (build f roots).value = ofSweep roots (f.numbering roots)
      (Sweep.run (f.numbering roots)) := rfl

section

variable {f : Flow} {roots : List Block} {a b d r : Block} {i h w : Nat} (hf : f.InRange)
include hf

private theorem contains_build : (build f roots).value.contains b = true ↔ f.Reaches roots b := by
  rw [value_build, ← Numbering.exists_number_iff hf]
  change (f.numbering roots).position.contains b = true ↔ _
  rw [Std.ExtTreeMap.contains_eq_isSome_getElem?, Option.isSome_iff_exists]
  constructor
  · rintro ⟨i, hi⟩
    exact ⟨i + 1, (Numbering.position_iff hf).mp hi⟩
  · rintro ⟨w, hw⟩
    cases w with
    | zero => cases hw
    | succ i => exact ⟨i, (Numbering.position_iff hf).mpr hw⟩

private theorem mem_roots_build : b ∈ (build f roots).value.roots ↔ b ∈ f.validRoots roots := by
  have hmem : b ∈ (f.numbering roots).position ↔ f.Reaches roots b := by
    rw [← contains_build hf, ← Std.ExtTreeMap.contains_iff_mem]
    rfl
  rw [value_build, mem_roots_ofSweep, hmem]
  constructor
  · rintro ⟨hr, hb⟩
    exact Flow.mem_validRoots_of_reaches hf hb hr
  · intro hb
    exact ⟨(List.mem_filter.mp hb).1, f.reaches_of_mem hb⟩

private theorem successors_build (hb : f.Reaches roots b) :
    (build f roots).value.successors b = f.successors b := by
  obtain ⟨w, hw⟩ := (Numbering.exists_number_iff hf).mpr hb
  cases w with
  | zero => cases hw
  | succ i =>
    have hp : (build f roots).value.position? b = some i := (Numbering.position_iff hf).mpr hw
    rw [Numbering.block?_succ] at hw
    unfold successors
    rw [hp]
    simp [value_build, ofSweep, Numbering.ofRoots, Numbering.ofOrder, hw]

/-- Ancestors at the head of a depth-first tree are roots at the end of the parents. -/
theorem headOf_build (hh : (f.numbering roots).Head h w)
    (hr : (f.numbering roots).block? h = some r)
    (hb : (f.numbering roots).block? w = some b) :
    r ∈ f.validRoots roots ∧ (build f roots).value.HeadOf r b := by
  have hn := Numbering.depthFirst_numbering hf roots
  have hparent : ∀ {i c}, (f.numbering roots).block? (i + 1) = some c →
      (build f roots).value.parent? c =
        (f.numbering roots).block? ((f.numbering roots).parentOf (i + 1)) :=
    fun hc => parent?_ofSweep (Numbering.indexed_numbering hf roots) hc
  constructor
  · obtain ⟨pos, hle⟩ := Numbering.block?_bounds hr
    have hlead := hn.parent_leads h pos hle
    rw [hh.2] at hlead
    rcases (Numbering.leads_iff hf hr).mp hlead with ⟨_, hmem⟩ | ⟨a, ha, _⟩
    · exact hmem
    · cases ha
  · have htop := hh.2
    obtain ⟨hanc, _⟩ := hh
    induction hanc generalizing b with
    | refl =>
      rw [hr] at hb
      cases hb
      cases h with
      | zero => cases hr
      | succ i =>
        apply HeadOf.head
        rw [hparent hr, htop]
        rfl
    | @up w pos hle hanc ih =>
      cases w with
      | zero => omega
      | succ i =>
        -- The parent is not the virtual entry, because the head lies above it.
        have hpos : 0 < (f.numbering roots).parentOf (i + 1) :=
          Nat.lt_of_lt_of_le (Numbering.block?_bounds hr).1 (hn.le_of_ancestor hanc)
        have hlt := hn.parent_lt (i + 1) pos hle
        obtain ⟨p, hp⟩ := Numbering.exists_block (n := f.numbering roots) hpos (by omega)
        exact .up ((hparent hb).trans hp) (ih hp)

/-- The place of a reached block, with its reasons. -/
private theorem placed_build (hb : f.Reaches roots b) :
    (build f roots).value.Placed f roots b := by
  have hn := Numbering.depthFirst_numbering hf roots
  have hx := Numbering.indexed_numbering hf roots
  obtain ⟨w, hw⟩ := (Numbering.exists_number_iff hf).mpr hb
  cases w with
  | zero => cases hw
  | succ i =>
    obtain ⟨pos, hle⟩ := Numbering.block?_bounds hw
    have hid := Sweep.isIdom_run hn pos hle
    have hshared : (build f roots).value.isShared b = (placeAt roots _ _ b i).isShared :=
      isShared_ofSweep hx hw
    have hidom : (build f roots).value.idom? b = (placeAt roots _ _ b i).above?.bind _ :=
      idom?_ofSweep hx hw
    cases hD : (Sweep.run (f.numbering roots)).idomOf (i + 1) with
    | zero =>
      rw [hD] at hid
      rw [placeAt_of_zero hD] at hshared hidom
      by_cases hr : b ∈ roots
      · rw [if_pos (List.contains_iff_mem.mpr hr)] at hshared hidom
        exact .root (Flow.mem_validRoots_of_reaches hf hb hr) hidom hshared
      · rw [if_neg (fun hc => hr (List.contains_iff_mem.mp hc))] at hshared hidom
        have hhead := head_heads hn hle
        have hhle := hn.ancestor_le_size hhead.1 hle
        obtain ⟨r, hr'⟩ := Numbering.exists_block (Nat.succ_pos _) hhle
        obtain ⟨hmem, hof⟩ := headOf_build hf hhead hr' hw
        exact .shared r hr hmem hof (hidom.trans hr') hshared
          fun a ha => Numbering.eq_of_isIdom_zero hf hw hid ha
    | succ d =>
      rw [hD] at hid
      rw [placeAt_of_succ hD] at hshared hidom
      have hlt := hn.idom_lt hle hid
      obtain ⟨c, hc⟩ :=
        Numbering.exists_block (n := f.numbering roots) (Nat.succ_pos d) (by omega)
      have himm := Numbering.immediatelyDominates_of_isIdom hf hc hw hid
      refine .below c (fun hr => ?_) (hidom.trans hc) hshared himm
      have hmem := Flow.mem_validRoots_of_reaches hf hb hr
      exact himm.1.1 (Flow.eq_of_dominates_root hmem himm.1.2)

/-- A block at position `i` hangs below a position before `i`, if it hangs anywhere. -/
private theorem above_lt_build (hb : (f.numbering roots).block? (i + 1) = some b)
    {j : Nat} (hj : (placeAt roots (f.numbering roots)
      (Sweep.run (f.numbering roots)) b i).above? = some j) : j < i := by
  have hn := Numbering.depthFirst_numbering hf roots
  obtain ⟨pos, hle⟩ := Numbering.block?_bounds hb
  have hid := Sweep.isIdom_run hn pos hle
  cases hD : (Sweep.run (f.numbering roots)).idomOf (i + 1) with
  | zero =>
    rw [placeAt_of_zero hD] at hj
    by_cases hr : b ∈ roots
    · rw [if_pos (List.contains_iff_mem.mpr hr)] at hj
      cases hj
    · rw [if_neg (fun hc => hr (List.contains_iff_mem.mp hc))] at hj
      cases hj
      have hhead := head_heads hn hle
      have hhi := hn.le_of_ancestor hhead.1
      have hne : (heads (f.numbering roots)).getD i 0 ≠ i := by
        intro he
        rw [he] at hhead
        exact hr (List.mem_filter.mp (headOf_build hf hhead hb hb).1).1
      omega
  | succ d =>
    rw [placeAt_of_succ hD] at hj
    cases hj
    rw [hD] at hid
    have := hn.idom_lt hle hid
    omega

/-- Strict dominators of a block have numbers that dominate the semidominator. -/
private theorem exists_dominates_semi
    (hb : (f.numbering roots).block? w = some b) (ha : f.StrictlyDominates roots a b) :
    ∃ v, (f.numbering roots).block? v = some a ∧
      (f.numbering roots).Dominates v ((f.numbering roots).semi w) := by
  have hra := ha.2.reaches (Numbering.reaches_of_block? hf hb)
  obtain ⟨v, hv⟩ := (Numbering.exists_number_iff hf).mpr hra
  obtain ⟨pos, hle⟩ := Numbering.block?_bounds hb
  refine ⟨v, hv, ?_⟩
  apply (Numbering.depthFirst_numbering hf roots).dominates_semi pos hle
  · exact (Numbering.dominates_iff_flow hf hv hb).mpr ha.2
  · rintro rfl
    exact ha.1 (Option.some.inj (hv.symm.trans hb))

/-- The semidominator of a block is stored at an earlier position or its own, and strict dominators
of the block dominate the block there. -/
private theorem semi_build (hb : (f.numbering roots).block? (i + 1) = some b) :
    ∃ v s, (build f roots).value.semi[i]? = some v ∧ v ≤ i ∧
      (build f roots).value.blockAt? v = some s ∧
        ∀ a, f.StrictlyDominates roots a b → f.Dominates roots a s := by
  have hn := Numbering.depthFirst_numbering hf roots
  obtain ⟨pos, hle⟩ := Numbering.block?_bounds hb
  have hsemi : (build f roots).value.semi[i]? = some (semiPosition _ _ (roots.contains b) i) :=
    semi_ofSweep hb
  unfold semiPosition at hsemi
  rw [Sweep.semiOf_run hn pos hle] at hsemi
  cases hS : (f.numbering roots).semi (i + 1) with
  | zero =>
    -- Only the virtual entry dominates the virtual entry, so the block has no strict dominator.
    rw [hS] at hsemi
    have hnone : ∀ a, ¬f.StrictlyDominates roots a b := by
      intro a ha
      obtain ⟨v, hv, hdom⟩ := exists_dominates_semi hf hb ha
      rw [hS] at hdom
      exact hdom (.entry (Nat.ne_of_gt (Numbering.block?_bounds hv).1))
    have hhead := head_heads hn hle
    have hhle := hn.le_of_ancestor hhead.1
    by_cases hr : roots.contains b = true
    · simp only [if_pos hr] at hsemi
      exact ⟨i, b, hsemi, Nat.le_refl i, hb, fun a ha => absurd ha (hnone a)⟩
    · simp only [if_neg hr] at hsemi
      obtain ⟨r, hr'⟩ := Numbering.exists_block (Nat.succ_pos _) (hn.ancestor_le_size hhead.1 hle)
      exact ⟨_, r, hsemi, Nat.le_of_succ_le_succ hhle, hr', fun a ha => absurd ha (hnone a)⟩
  | succ v =>
    rw [hS] at hsemi
    have hlt := hn.semi_lt pos hle
    rw [hS] at hlt
    obtain ⟨c, hc⟩ :=
      Numbering.exists_block (n := f.numbering roots) (Nat.succ_pos v) (by omega)
    refine ⟨v, c, hsemi, by omega, hc, fun a ha => ?_⟩
    obtain ⟨x, hx, hdom⟩ := exists_dominates_semi hf hb ha
    rw [hS] at hdom
    exact (Numbering.dominates_iff_flow hf hx hc).mp hdom

/-- The tree that is built from an in-range flow is exact. -/
theorem exact_build (roots : List Block) : (build f roots).value.Exact f roots where
  contains_iff _ := contains_build hf
  mem_roots_iff _ := mem_roots_build hf
  position?_iff _ _ := Numbering.position_iff hf
  successors_eq _ := successors_build hf
  targets_size := by simp [value_build, ofSweep, Numbering.ofRoots, Numbering.ofOrder, size]
  placed _ := placed_build hf
  reaches_of_idom? b d hd := by
    apply Classical.byContradiction
    intro hb
    have hnot : b ∉ (f.numbering roots).order.toList := by
      intro hmem
      obtain ⟨i, hi⟩ := List.getElem?_of_mem hmem
      rw [Array.getElem?_toList] at hi
      exact hb (Numbering.reaches_of_block? (w := i + 1) hf hi)
    rw [value_build, idom?_ofSweep_of_not_mem hnot] at hd
    cases hd
  idom_before b d i hb hd := by
    rw [value_build, idom?_ofSweep (Numbering.indexed_numbering hf roots) hb] at hd
    obtain ⟨j, hj, hjd⟩ := Option.bind_eq_some_iff.mp hd
    exact ⟨j, hjd, above_lt_build hf hb hj⟩
  mem_children_iff d i c hc := by
    have hds : d < (f.numbering roots).size := (Array.getElem?_eq_some_iff.mp hc).1
    rw [value_build, mem_children_ofSweep hds]
    apply exists_congr
    intro b
    apply and_congr_right
    intro hb
    rw [idom?_ofSweep (Numbering.indexed_numbering hf roots) hb, Option.bind_eq_some_iff]
    constructor
    · intro h
      exact ⟨d, h, hc⟩
    · rintro ⟨e, he, hec⟩
      have hed := Numbering.block?_inj (v := e + 1) (w := d + 1) hf hec hc
      rw [he, Nat.succ.inj hed]
  children_ascending _ hd := pairwise_children_ofSweep hd
  semi_spec _ _ hb := semi_build hf hb

end

end Tree
end Dominance
