import Mathlib.Data.Nat.Find
import Dominance.Proofs.Recursive
import Dominance.Proofs.Tree.Exact

/-!
# Parents in the depth-first forest

The parent of a block is the last block before it that leads to it. Along parents, every edge that leads
forward comes from an ancestor, and the descendants of a block are consecutive from the block on. All of
this holds of the blocks that a traversal has visited up to any moment, so it also holds of a numbering
that stops at a cap.
-/

namespace Dominance
namespace Flow

/-- What a traversal of an in-range flow has visited at some moment, in the order of its visits. -/
structure Begun (f : Flow) (roots order : List Block) : Prop where
  nodup : order.Nodup
  inside : ∀ b ∈ order, f.has b = true
  nested : f.Nested roots order

variable {f : Flow} {roots order more : List Block}

/-- The beginning of a nested order is nested: whether a block may come next is decided by what came
before it. -/
theorem Nested.of_append (h : f.Nested roots (order ++ more)) : f.Nested roots order := by
  intro i b hb
  have hi := (List.getElem?_eq_some_iff.mp hb).1
  obtain ⟨t, ht, hfind, hbest⟩ := h i b (by rwa [List.getElem?_append_left hi])
  refine ⟨t, ht, (finds_append (by omega)).mp hfind, ?_⟩
  intro u c hu huc hc
  apply hbest u c hu ((finds_append (by omega)).mpr huc)
  rwa [List.take_append_of_le_length (by omega)]

private theorem Begun.of_append (h : f.Begun roots (order ++ more)) : f.Begun roots order where
  nodup := (List.nodup_append.mp h.nodup).1
  inside b hb := h.inside b (List.mem_append_left _ hb)
  nested := h.nested.of_append

/-- A whole traversal is one that has been begun. -/
theorem begun_preorder (hf : f.InRange) (roots : List Block) : f.Begun roots (f.preorder roots) where
  nodup := f.nodup_preorder hf roots
  inside _ hb := ((f.mem_preorder hf).mp hb).has hf
  nested := f.nested_preorder hf roots

end Flow

namespace Numbering

/-- The numbers of what a traversal of a flow has visited at some moment. -/
structure Traces (f : Flow) (roots : List Block) (n : Numbering) : Prop where
  depthFirst : n.DepthFirst
  indexed : n.Indexed
  leads_iff : ∀ t i b, n.order[i]? = some b →
    (n.Leads t (i + 1) ↔ f.Finds roots n.order.toList t b)
  parent_size : n.parent.size = n.size + 1

/-- Position `j` is the last one before `i` at which a block leads to `b`. -/
def LastSource (f : Flow) (n : Numbering) (b : Block) (i j : Nat) : Prop :=
  (j < i ∧ ∃ u, n.order[j]? = some u ∧ b ∈ f.successors u) ∧
    ∀ k u, k < i → n.order[k]? = some u → b ∈ f.successors u → k ≤ j

variable {f : Flow} {roots order : List Block} {n : Numbering} {b : Block} {a i j : Nat}

/-- The numbers of a traversal that has been begun trace it. -/
theorem traces_ofOrder (h : f.Begun roots order) : (ofOrder f roots order).Traces f roots where
  depthFirst := depthFirst_ofOrder h.nodup h.inside h.nested
  indexed b i := by
    rw [show (ofOrder f roots order).order[i]? = order[i]? from List.getElem?_toArray]
    exact Survey.position_eq_some_iff h.nodup
  leads_iff t i b hb := by
    have hb' : order[i]? = some b := by rwa [← List.getElem?_toArray]
    rw [leads_succ_iff h.nodup h.inside, hb']
    simp [ofOrder]
  parent_size := by simp [ofOrder, size]

/-- A numbering, capped or not, is that of what a traversal has visited at some moment. -/
theorem traces_ofRoots (hf : f.InRange) (roots : List Block) (cap : Option Nat) :
    (ofRoots f roots cap).Traces f roots := by
  have h := f.begun_preorder hf roots
  cases cap with
  | none => exact traces_ofOrder h
  | some k =>
    rw [← List.take_append_drop k (f.preorder roots)] at h
    exact traces_ofOrder h.of_append

/-- The descendants of a number end at some number. -/
theorem DepthFirst.exists_last_descendant (hn : n.DepthFirst) (ha : a ≤ n.size) :
    ∃ z, a ≤ z ∧ z ≤ n.size ∧ ∀ v, v ≤ n.size → (n.Ancestor a v ↔ a ≤ v ∧ v ≤ z) := by
  classical
  refine ⟨Nat.findGreatest (n.Ancestor a) n.size, ?_, Nat.findGreatest_le _, ?_⟩
  · exact Nat.le_findGreatest ha .refl
  · intro v hv
    have hlast : n.Ancestor a (Nat.findGreatest (n.Ancestor a) n.size) :=
      Nat.findGreatest_spec ha .refl
    constructor
    · intro h
      exact ⟨hn.le_of_ancestor h, Nat.le_findGreatest hv h⟩
    · rintro ⟨hav, hvz⟩
      exact hn.ancestor_between hlast hav hvz

private theorem LastSource.unique {k : Nat} (hj : n.LastSource f b i j) (hk : n.LastSource f b i k) :
    j = k := by
  obtain ⟨⟨hji, u, hu, hub⟩, hjmax⟩ := hj
  obtain ⟨⟨hki, v, hv, hvb⟩, hkmax⟩ := hk
  exact Nat.le_antisymm (hkmax j u hji hu hub) (hjmax k v hki hv hvb)

namespace Traces

variable (h : n.Traces f roots)
include h

/-- The positions before a block at which a block leads to it are those of smaller numbers that do. -/
theorem leads_succ (hb : n.order[i]? = some b) :
    n.Leads (j + 1) (i + 1) ↔ ∃ u, n.order[j]? = some u ∧ b ∈ f.successors u := by
  rw [h.leads_iff _ i b hb]
  simp [Flow.Finds]

/-- Either no block before leads to a block, which then is a root and has the virtual entry as its
parent, or the parent is the last block before that does. -/
theorem parentOf_cases (hb : n.order[i]? = some b) :
    (n.parentOf (i + 1) = 0 ∧ b ∈ f.validRoots roots ∧
      ∀ j u, j < i → n.order[j]? = some u → b ∉ f.successors u) ∨
    ∃ j, n.parentOf (i + 1) = j + 1 ∧ n.LastSource f b i j := by
  have hn := h.depthFirst
  have hi : i + 1 ≤ n.size := (Array.getElem?_eq_some_iff.mp hb).1
  have hlead := hn.parent_leads (i + 1) (Nat.succ_pos i) hi
  have hlt := hn.parent_lt (i + 1) (Nat.succ_pos i) hi
  have hmax : ∀ j u, j < i → n.order[j]? = some u → b ∈ f.successors u →
      j + 1 ≤ n.parentOf (i + 1) := by
    intro j u hj hu hub
    exact hn.le_parent _ _ _ ((h.leads_succ hb).mpr ⟨u, hu, hub⟩) (by omega) (Nat.le_refl _)
  cases hp : n.parentOf (i + 1) with
  | zero =>
    rw [hp] at hlead hmax
    refine Or.inl ⟨rfl, (h.leads_iff 0 i b hb).mp hlead, ?_⟩
    intro j u hj hu hub
    have := hmax j u hj hu hub
    omega
  | succ j =>
    rw [hp] at hlead hlt hmax
    refine Or.inr ⟨j, rfl, ⟨by omega, (h.leads_succ hb).mp hlead⟩, ?_⟩
    intro k v hk hv hvb
    exact Nat.le_of_succ_le_succ (hmax k v hk hv hvb)

end Traces
end Numbering

namespace Tree

/-- The block `a` is the given block or lies above it in the depth-first forest. -/
inductive Ancestor (t : Tree) (a : Block) : Block → Prop where
  | refl : Ancestor t a a
  | up {b p : Block} (h : t.parent? b = some p) (h' : Ancestor t a p) : Ancestor t a b

variable {f : Flow} {roots : List Block} {n : Numbering} {s : Sweep} {a b p : Block} {i j : Nat}

/-- Only blocks that were visited have a parent. -/
theorem exists_position_of_parent? (hx : n.Indexed) (h : (ofSweep roots n s).parent? b = some p) :
    ∃ i : Nat, n.order[i]? = some b := by
  obtain ⟨i, hi, _⟩ := Option.bind_eq_some_iff.mp h
  exact ⟨i, (hx b i).mp hi⟩

/-- Ancestors of blocks are ancestors of their numbers. -/
theorem ancestor_ofSweep_iff (hx : n.Indexed) (hn : n.DepthFirst) (ha : n.order[i]? = some a)
    (hb : n.order[j]? = some b) :
    (ofSweep roots n s).Ancestor a b ↔ n.Ancestor (i + 1) (j + 1) := by
  constructor
  · intro h
    induction h generalizing j with
    | refl =>
      have hij := (hx a i).mpr ha
      rw [(hx a j).mpr hb] at hij
      cases hij
      exact .refl
    | @up b p h _ ih =>
      rw [parent?_ofSweep hx hb] at h
      have hj : j + 1 ≤ n.size := (Array.getElem?_eq_some_iff.mp hb).1
      apply Numbering.Ancestor.up (Nat.succ_pos j) hj
      cases hp : n.parentOf (j + 1) with
      | zero =>
        rw [hp] at h
        cases h
      | succ k =>
        rw [hp] at h
        exact ih h
  · intro h
    generalize hw : j + 1 = w at h
    induction h generalizing j b with
    | refl =>
      cases hw
      cases ha.symm.trans hb
      exact .refl
    | @up w pos hle h ih =>
      subst hw
      have hpos := hn.le_of_ancestor h
      have hlt := hn.parent_lt (j + 1) pos hle
      obtain ⟨k, hk⟩ : ∃ k, n.parentOf (j + 1) = k + 1 := ⟨n.parentOf (j + 1) - 1, by omega⟩
      obtain ⟨p, hp⟩ := Numbering.exists_block (n := n) (Nat.succ_pos k) (by omega)
      refine .up ?_ (ih hp hk.symm)
      rw [parent?_ofSweep hx hb, hk]
      exact hp

section

variable (h : n.Traces f roots)
include h

/-- The parent of a block is the last block before it that leads to it. -/
theorem parent?_eq_some_iff (hb : n.order[i]? = some b) :
    (ofSweep roots n s).parent? b = some p ↔
      ∃ j : Nat, n.order[j]? = some p ∧ n.LastSource f b i j := by
  rw [parent?_ofSweep h.indexed hb]
  rcases h.parentOf_cases hb with ⟨hp, _, hnone⟩ | ⟨j, hp, hlast⟩
  · rw [hp]
    constructor
    · intro hc
      cases hc
    · rintro ⟨j, _, ⟨hj, u, hu, hub⟩, _⟩
      exact absurd hub (hnone j u hj hu)
  · rw [hp]
    constructor
    · intro hc
      exact ⟨j, hc, hlast⟩
    · rintro ⟨k, hk, hlast'⟩
      rw [hlast.unique hlast']
      exact hk

/-- A block has no parent exactly if no block before it leads to it, and then it is a root. -/
theorem parent?_eq_none_iff (hb : n.order[i]? = some b) :
    ((ofSweep roots n s).parent? b = none ↔
      ∀ (j : Nat) u, j < i → n.order[j]? = some u → b ∉ f.successors u) ∧
    ((ofSweep roots n s).parent? b = none → b ∈ f.validRoots roots) := by
  rw [parent?_ofSweep h.indexed hb]
  rcases h.parentOf_cases hb with ⟨hp, hroot, hnone⟩ | ⟨j, hp, ⟨hj, u, hu, hub⟩, _⟩
  · rw [hp]
    exact ⟨⟨fun _ => hnone, fun _ => rfl⟩, fun _ => hroot⟩
  · have hsome : n.block? (j + 1) ≠ none := by
      intro hc
      cases hu.symm.trans hc
    rw [hp]
    exact ⟨⟨fun hc => absurd hc hsome, fun hnone => absurd hub (hnone j u hj hu)⟩,
      fun hc => absurd hc hsome⟩

/-- The table of parents holds the number of the parent, which is that of the virtual entry where there
is none. -/
theorem getElem?_parent (hb : n.order[i]? = some b) :
    n.parent[i + 1]? = n.number? ((ofSweep roots n s).parent? b) := by
  have hi : i + 1 ≤ n.size := (Array.getElem?_eq_some_iff.mp hb).1
  have hlt := h.depthFirst.parent_lt (i + 1) (Nat.succ_pos i) hi
  have hsize := h.parent_size
  rw [parent?_ofSweep h.indexed hb, h.indexed.number?_block? (by omega), Numbering.parentOf,
    Array.getD_eq_getD_getElem?, Array.getElem?_eq_getElem (by omega)]
  rfl

/-- The descendants of a block are consecutive from the block on. -/
theorem exists_descendants (hb : n.order[i]? = some b) : ∃ k, i < k ∧ k ≤ n.size ∧
    ∀ c, (ofSweep roots n s).Ancestor b c ↔ ∃ j, n.order[j]? = some c ∧ i ≤ j ∧ j < k := by
  have hi : i + 1 ≤ n.size := (Array.getElem?_eq_some_iff.mp hb).1
  obtain ⟨k, hik, hk, hdesc⟩ := h.depthFirst.exists_last_descendant hi
  refine ⟨k, hik, hk, fun c => ?_⟩
  have hiff : ∀ j : Nat, n.order[j]? = some c →
      ((ofSweep roots n s).Ancestor b c ↔ i ≤ j ∧ j < k) := by
    intro j hj
    have hjs : j + 1 ≤ n.size := (Array.getElem?_eq_some_iff.mp hj).1
    rw [ancestor_ofSweep_iff h.indexed h.depthFirst hb hj, hdesc (j + 1) hjs]
    omega
  constructor
  · intro hc
    have hpos : ∃ j : Nat, n.order[j]? = some c := by
      cases hc with
      | refl => exact ⟨i, hb⟩
      | up hp _ => exact exists_position_of_parent? h.indexed hp
    obtain ⟨j, hj⟩ := hpos
    exact ⟨j, hj, (hiff j hj).mp hc⟩
  · rintro ⟨j, hj, hjk⟩
    exact (hiff j hj).mpr hjk

/-- An edge that leads forward comes from an ancestor. -/
theorem ancestor_of_successor (ha : n.order[i]? = some a) (hb : n.order[j]? = some b) (hij : i < j)
    (hab : b ∈ f.successors a) : (ofSweep roots n s).Ancestor a b := by
  rw [ancestor_ofSweep_iff h.indexed h.depthFirst ha hb]
  exact h.depthFirst.ancestor_of_leads ((h.leads_succ hb).mpr ⟨a, ha, hab⟩) (by omega)
    (Nat.le_refl _)

end

/-- The tables of a numbering of an in-range flow, whatever its cap, describe a depth-first forest.
Blocks and positions determine each other. The parent of a block is the last block before it that leads
to it; there is none exactly if no block before leads to it, and then the block is a root. An edge that
leads forward comes from an ancestor, and the descendants of a block are consecutive from the block on.
Without a cap the blocks are those that the roots reach. -/
theorem depthFirst_forest (f : Flow) (hf : f.InRange) (roots : List Block) (cap : Option Nat) :
    let n := Numbering.ofRoots f roots cap
    let t := (ofNumbering roots n).value
    (cap = none → t = (build f roots).value ∧
      ∀ b, f.Reaches roots b ↔ ∃ i : Nat, n.order[i]? = some b) ∧
    (∀ (b : Block) (i : Nat), n.position[b]? = some i ↔ n.order[i]? = some b) ∧
    (∀ (b : Block) (i : Nat), n.order[i]? = some b →
      n.parent[i + 1]? = n.number? (t.parent? b) ∧
      (∀ p, t.parent? b = some p ↔ ∃ j : Nat, n.order[j]? = some p ∧ n.LastSource f b i j) ∧
      (t.parent? b = none ↔
        ∀ (j : Nat) u, j < i → n.order[j]? = some u → b ∉ f.successors u) ∧
      (t.parent? b = none → b ∈ f.validRoots roots) ∧
      ∃ k, i < k ∧ k ≤ n.size ∧
        ∀ c, t.Ancestor b c ↔ ∃ j, n.order[j]? = some c ∧ i ≤ j ∧ j < k) ∧
    (∀ (u v : Block) (i j : Nat), n.order[i]? = some u → n.order[j]? = some v → i < j →
      v ∈ f.successors u → t.Ancestor u v) := by
  intro n t
  have h : n.Traces f roots := Numbering.traces_ofRoots hf roots cap
  refine ⟨?_, h.indexed, fun b i hb => ?_, fun u v i j => ancestor_of_successor h⟩
  · rintro rfl
    refine ⟨rfl, fun b => ?_⟩
    rw [← f.mem_preorder hf, List.mem_iff_getElem?]
    simp only [← List.getElem?_toArray]
    rfl
  · obtain ⟨hnone, hroot⟩ := parent?_eq_none_iff (s := Sweep.run n) h hb
    exact ⟨getElem?_parent h hb, fun p => parent?_eq_some_iff h hb, hnone, hroot,
      exists_descendants h hb⟩

/-- A root that an edge leads to before its own turn comes has a parent. Of the two blocks before `1`
that lead to it, the parent is the later one. -/
theorem depthFirst_forest_tangle :
    Flow.tangle.InRange ∧
      let t := (build Flow.tangle [⟨3⟩, ⟨0⟩, ⟨7⟩]).value
      t.order = #[⟨0⟩, ⟨2⟩, ⟨1⟩, ⟨3⟩] ∧ t.parent? ⟨1⟩ = some ⟨2⟩ ∧ t.parent? ⟨3⟩ = some ⟨1⟩ ∧
        t.Ancestor ⟨0⟩ ⟨1⟩ ∧ t.Ancestor ⟨2⟩ ⟨3⟩ := by
  have hf : Flow.tangle.InRange := Flow.inRange_ofLists (by decide)
  have horder : (build Flow.tangle [⟨3⟩, ⟨0⟩, ⟨7⟩]).value.order = #[⟨0⟩, ⟨2⟩, ⟨1⟩, ⟨3⟩] := by
    decide +kernel
  obtain ⟨_, _, hparent, hedge⟩ := depthFirst_forest Flow.tangle hf [⟨3⟩, ⟨0⟩, ⟨7⟩] none
  have hat : ∀ i : Nat, (Numbering.ofRoots Flow.tangle [⟨3⟩, ⟨0⟩, ⟨7⟩] none).order[i]? =
      (#[⟨0⟩, ⟨2⟩, ⟨1⟩, ⟨3⟩] : Array Block)[i]? := fun i => congrArg (·[i]?) horder
  simp only [hat] at hparent hedge
  refine ⟨hf, horder, ?_, ?_, ?_, ?_⟩
  · apply ((hparent ⟨1⟩ 2 rfl).2.1 ⟨2⟩).mpr
    exact ⟨1, rfl, ⟨by decide, ⟨2⟩, hat 1, by decide⟩, fun k u hk _ _ => by omega⟩
  · apply ((hparent ⟨3⟩ 3 rfl).2.1 ⟨1⟩).mpr
    exact ⟨2, rfl, ⟨by decide, ⟨1⟩, hat 2, by decide⟩, fun k u hk _ _ => by omega⟩
  · exact hedge _ _ 0 2 rfl rfl (by decide) (by decide)
  · exact hedge _ _ 1 3 rfl rfl (by decide) (by decide)

end Tree
end Dominance
