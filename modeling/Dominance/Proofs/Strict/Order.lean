import Dominance.Proofs.Strict.Tree
import Dominance.Proofs.Tree.Order

/-!
# Strict orders and frontiers

The descent that makes the topological order takes every position at most once, because each is listed
below one position at most and those that the descent begins with are listed nowhere. It ends on every
tree, whether or not the tree is right about dominance, and so do the frontiers that follow it.
-/

namespace Dominance

/-- A flow of one block that leads past the block count, to two blocks that lead to each other. -/
def Flow.beyond : Flow := .ofLists 1 #[[⟨2⟩], [], [⟨3⟩], [⟨2⟩]]

private theorem Flow.not_inRange_beyond : ¬Flow.beyond.InRange := by
  intro h
  have hlead : (⟨2⟩ : Block) ∈ Flow.beyond.successors ⟨0⟩ := by decide
  have hhas := h ⟨0⟩ ⟨2⟩ (by decide) hlead
  cases hhas

namespace Tree

/-- What holds when the positions in `out` have been taken and those in `stack` wait. -/
structure Unfolding (t : Tree) (out stack : List Nat) : Prop where
  nodup : (out ++ stack).Nodup
  inside : ∀ w ∈ out ++ stack, w < t.size
  taken : ∀ w d, t.Child w d → w ∈ out ++ stack → d ∈ out

variable {t : Tree} {out stack : List Nat} {fuel k w : Nat} {b : Block}

private theorem Unfolding.length_le (h : t.Unfolding out stack) : (out ++ stack).length ≤ t.size :=
  length_le_of_nodup h.nodup h.inside

private theorem tops_eq (t : Tree) : t.tops =
    (List.range t.size).filter fun w => (t.blockAt? w).any fun b => !t.idom.contains b := by
  unfold tops
  apply List.filter_congr
  intro w _
  cases t.blockAt? w <;> rfl

private theorem strict_tops {ws : List Nat} (hws : ∀ w ∈ ws, w < t.size) :
    Strict.tops t ws =
      some (ws.filter fun w => (t.blockAt? w).any fun b => !t.idom.contains b) := by
  induction ws with
  | nil => rfl
  | cons w ws ih =>
    have hw : w < t.order.size := hws w List.mem_cons_self
    have hb : t.blockAt? w = some t.order[w] := Array.getElem?_eq_getElem hw
    rw [Strict.tops, ih fun v hv => hws v (List.mem_cons_of_mem w hv), List.filter_cons, hb]
    simp only [Option.bind_eq_bind, Option.bind_some, Array.getElem?_eq_getElem hw, Option.any_some]
    by_cases hi : t.idom.contains t.order[w] = true <;> simp [hi]

namespace Shaped

variable (h : t.Shaped)
include h

private theorem unfolding_tops : t.Unfolding [] t.tops where
  nodup := t.nodup_tops
  inside w hw := by
    rcases mem_tops.mp hw with ⟨b, hb, _⟩
    exact (Array.getElem?_eq_some_iff.mp hb).1
  taken w d hc hw := by
    rcases mem_tops.mp hw with ⟨b, hb, hfree⟩
    have hsome := h.idom_child w d b hc hb
    rw [hfree] at hsome
    cases hsome

/-- Taking one position. -/
theorem unfolding_take (hu : t.Unfolding out (w :: stack)) :
    t.Unfolding (out ++ [w]) ((t.children.getD w #[]).toList.reverse ++ stack) := by
  have hperm := perm_take out (t.children.getD w #[]).toList stack w
  have hw : w ∈ out ++ w :: stack := by simp
  have hfresh : w ∉ out := fun hmem =>
    (List.nodup_append.mp hu.nodup).2.2 w hmem w List.mem_cons_self rfl
  refine ⟨?_, ?_, ?_⟩
  · -- What is listed below `w` is new, because `w` was not taken before.
    rw [hperm.nodup_iff, List.nodup_append]
    refine ⟨h.nodup_children w (hu.inside w hw), hu.nodup, ?_⟩
    rintro x hx _ hx' rfl
    exact hfresh (hu.taken x w hx hx')
  · intro x hx
    rw [hperm.mem_iff, List.mem_append] at hx
    rcases hx with hx | hx
    · exact h.child_lt x w hx
    · exact hu.inside x hx
  · intro x d hxd hx
    rw [hperm.mem_iff, List.mem_append] at hx
    rw [List.mem_append, List.mem_singleton]
    rcases hx with hx | hx
    · exact Or.inr (h.child_unique x d w hxd hx)
    · exact Or.inl (hu.taken x d hxd hx)

/-- With fuel for the positions that are left, the descent ends, and it takes what it takes without
looking. -/
theorem strict_descend (hu : t.Unfolding out stack) (hk : t.size ≤ out.length + k)
    (hfuel : t.size ≤ out.length + fuel) :
    Strict.descend t fuel stack = some ((t.descend k stack).filterMap t.blockAt?) := by
  have hle := hu.length_le
  induction fuel generalizing k out stack with
  | zero =>
    rw [List.length_append] at hle
    have hnil : stack = [] := List.eq_nil_of_length_eq_zero (by omega)
    subst hnil
    cases k <;> rfl
  | succ fuel ih =>
    cases stack with
    | nil => cases k <;> rfl
    | cons w stack =>
      rw [List.length_append, List.length_cons] at hle
      obtain ⟨k, rfl⟩ : ∃ j, k = j + 1 := ⟨k - 1, by omega⟩
      have hw : w < t.size := hu.inside w (by simp)
      have hnext := h.unfolding_take hu
      have hlen : (out ++ [w]).length = out.length + 1 := List.length_append
      have hrest := ih (k := k) hnext (by omega) (by omega) hnext.length_le
      have hb : t.blockAt? w = some t.order[w] := Array.getElem?_eq_getElem hw
      have hread : t.order[w]? = some t.order[w] := hb
      have hchildren : t.children[w]? = some (t.children.getD w #[]) :=
        Strict.getElem?_of_lt (h.children_size ▸ hw) #[]
      rw [Strict.descend, Tree.descend, List.filterMap_cons_some hb]
      simp only [Option.bind_eq_bind, Option.bind_some, hread, hchildren, hrest]

/-- The topological order is made for every flow. -/
theorem strict_topological (hfuel : t.size < fuel) :
    Strict.topological fuel t = some t.topological := by
  have htops : Strict.tops t (List.range t.size) = some t.tops := by
    rw [tops_eq]
    exact strict_tops fun w hw => List.mem_range.mp hw
  unfold Strict.topological topological
  rw [htops, Option.bind_eq_bind, Option.bind_some]
  apply h.strict_descend h.unfolding_tops
  · simp
  · simp
    omega

private theorem strict_successors (b : Block) : Strict.successors t b = some (t.successors b) := by
  unfold Strict.successors successors
  cases hp : t.position? b with
  | none => rfl
  | some w =>
    have hw : w < t.size := (Array.getElem?_eq_some_iff.mp (h.blockAt?_of_position? b w hp)).1
    exact Strict.getElem?_of_lt (h.targets_size ▸ hw) []

/-- So are the frontiers. -/
theorem strict_frontiers (hfuel : t.size < fuel) :
    Strict.frontiers fuel t = some t.frontiers := by
  unfold Strict.frontiers
  rw [h.strict_topological hfuel]
  refine (Strict.foldlM_eq_some (P := fun _ => True) (fun m x _ _ => ⟨?_, trivial⟩) trivial).1
  unfold Strict.addFrontier
  rw [h.strict_successors]
  rfl

end Shaped

/-- Construction is total. Whatever a flow leads to, and whatever its roots and the cap on its blocks,
numbering, both passes and finishing have an answer without the defaults for absent entries and
without the bounds on loops. Links never close a cycle, in whatever order numbers are linked below
their parents and ancestors skipped. The order and the frontiers of the result have an answer as well.
Fuel for one more round than there are numbers is enough for every loop. -/
theorem construction_total (f : Flow) (roots : List Block) (cap : Option Nat) (fuel : Nat)
    (hfuel : (Numbering.ofRoots f roots cap).size < fuel) :
    let n := Numbering.ofRoots f roots cap
    let t := (ofNumbering roots n).value
    Strict.numbering fuel f roots cap = some n ∧
    Strict.run fuel n = some (Sweep.run n) ∧
    (∀ g : Forest, g.Arises n → g.Acyclic) ∧ (∀ k, (Sweep.after n k).forest.Arises n) ∧
    Strict.ofNumbering fuel roots n = some (ofNumbering roots n) ∧
    Strict.topological fuel t = some t.topological ∧
    Strict.frontiers fuel t = some t.frontiers := by
  intro n t
  have hn : n.Ranked := Numbering.ranked_ofRoots f roots cap
  obtain ⟨hrun, hs⟩ := Sweep.strict_run hn hfuel
  have ht : t.Shaped := shaped_ofSweep hn hs roots
  exact ⟨Strict.numbering_eq_some f roots cap hfuel, hrun, fun _ hg => (hg.ranked hn).acyclic,
    Sweep.arises_after hn, strict_ofNumbering hn hfuel roots, ht.strict_topological hfuel,
    ht.strict_frontiers hfuel⟩

/-- The third number has the fourth as its parent, because the block that found it is visited again and
known by its last number. -/
theorem construction_total_beyond :
    let n := Numbering.ofRoots Flow.beyond [⟨0⟩] none
    let t := (ofNumbering [⟨0⟩] n).value
    ¬Flow.beyond.InRange ∧ n.size < 5 ∧ n.order = #[⟨0⟩, ⟨2⟩, ⟨3⟩, ⟨2⟩] ∧ n.parentOf 3 = 4 ∧
      Strict.numbering 5 Flow.beyond [⟨0⟩] none = some n ∧
      Strict.run 5 n = some (Sweep.run n) ∧
      (∀ g : Forest, g.Arises n → g.Acyclic) ∧ (∀ k, (Sweep.after n k).forest.Arises n) ∧
      Strict.ofNumbering 5 [⟨0⟩] n = some (ofNumbering [⟨0⟩] n) ∧
      Strict.topological 5 t = some t.topological ∧
      Strict.frontiers 5 t = some t.frontiers := by
  have hsize : (Numbering.ofRoots Flow.beyond [⟨0⟩] none).size < 5 := by decide +kernel
  exact ⟨Flow.not_inRange_beyond, hsize, by decide +kernel, by decide +kernel,
    construction_total Flow.beyond [⟨0⟩] none 5 hsize⟩

end Tree
end Dominance
