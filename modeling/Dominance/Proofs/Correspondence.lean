import Dominance.Proofs.Dominator
import Dominance.Proofs.Numbering

/-!
# Numbers and blocks

The numbers of a traversal, the virtual entry apart, name the reachable blocks. Leading and dominance
of numbers are leading and dominance of the blocks that they name.
-/

namespace Dominance

/-- The numbering of all blocks that roots reach. -/
abbrev Flow.numbering (f : Flow) (roots : List Block) : Numbering := Numbering.ofRoots f roots none

namespace Numbering

variable {f : Flow} {roots : List Block} {a b c : Block} {u v w i : Nat}

/-- The numbers from one on name the blocks in the order of their visits. -/
theorem block?_succ (f : Flow) (roots : List Block) (i : Nat) :
    (f.numbering roots).block? (i + 1) = (f.preorder roots)[i]? := by
  change (f.preorder roots).toArray[i]? = _
  rw [List.getElem?_toArray]

/-- A number with a block belongs to the forest and is not the virtual entry. -/
theorem block?_bounds {n : Numbering} (h : n.block? w = some b) : 0 < w ∧ w ≤ n.size := by
  cases w with
  | zero => cases h
  | succ i => exact ⟨Nat.succ_pos i, (Array.getElem?_eq_some_iff.mp h).1⟩

/-- Every number of the forest but the virtual entry has a block. -/
theorem exists_block {n : Numbering} (pos : 0 < w) (hw : w ≤ n.size) : ∃ b, n.block? w = some b := by
  cases w with
  | zero => omega
  | succ i => exact ⟨n.order[i], Array.getElem?_eq_getElem hw⟩

/-- The numbers of an in-range flow are depth-first. -/
theorem depthFirst_numbering (hf : f.InRange) (roots : List Block) :
    (f.numbering roots).DepthFirst := depthFirst_ofRoots hf roots

section

variable (hf : f.InRange)
include hf

/-- A block has one number. -/
theorem block?_inj (hv : (f.numbering roots).block? v = some b)
    (hw : (f.numbering roots).block? w = some b) : v = w := by
  cases v with
  | zero => cases hv
  | succ i =>
    cases w with
    | zero => cases hw
    | succ j =>
      rw [block?_succ] at hv hw
      have hi := (List.getElem?_eq_some_iff.mp hv).1
      rw [(List.getElem?_inj hi (f.nodup_preorder hf roots)).mp (hv.trans hw.symm)]

/-- The blocks with numbers are the reachable ones. -/
theorem exists_number_iff : (∃ w, (f.numbering roots).block? w = some b) ↔ f.Reaches roots b := by
  rw [← f.mem_preorder hf]
  constructor
  · rintro ⟨w, hw⟩
    cases w with
    | zero => cases hw
    | succ i =>
      rw [block?_succ] at hw
      exact List.mem_of_getElem? hw
  · intro hb
    obtain ⟨i, hi⟩ := List.getElem?_of_mem hb
    exact ⟨i + 1, by rw [block?_succ, hi]⟩

/-- Only blocks that the roots reach have numbers. -/
theorem reaches_of_block? (h : (f.numbering roots).block? w = some b) : f.Reaches roots b :=
  (exists_number_iff hf).mp ⟨w, h⟩

/-- The position of a block is one less than its number. -/
theorem position_iff :
    (f.numbering roots).position[b]? = some i ↔ (f.numbering roots).block? (i + 1) = some b := by
  rw [block?_succ]
  exact Survey.position_eq_some_iff (f.nodup_preorder hf roots)

/-- A number leads to another if it is the virtual entry and the other a root, or if the one block
leads to the other. -/
theorem leads_iff (hb : (f.numbering roots).block? w = some b) :
    (f.numbering roots).Leads v w ↔ (v = 0 ∧ b ∈ f.validRoots roots) ∨
      ∃ a, (f.numbering roots).block? v = some a ∧ b ∈ f.successors a := by
  have hin : ∀ c ∈ f.preorder roots, f.has c = true :=
    fun c hc => ((f.mem_preorder hf).mp hc).has hf
  cases w with
  | zero => cases hb
  | succ i =>
    rw [block?_succ] at hb
    have hone : (∃ c, (f.preorder roots)[i]? = some c ∧ f.Finds roots (f.preorder roots) v c) ↔
        f.Finds roots (f.preorder roots) v b := by
      rw [hb]
      simp
    rw [show (f.numbering roots).Leads v (i + 1) ↔ _ from
      leads_succ_iff (f.nodup_preorder hf roots) hin, hone]
    cases v with
    | zero => simp [Flow.Finds, block?]
    | succ j =>
      simp only [block?_succ]
      constructor
      · exact Or.inr
      · rintro (⟨h, _⟩ | h)
        · cases h
        · exact h

/-- A number is reached past another exactly if some walk from a root to its block leaves out the
other block. -/
theorem avoids_iff (ha : (f.numbering roots).block? v = some a)
    (hb : (f.numbering roots).block? w = some b) :
    (f.numbering roots).Avoids v w ↔
      ∃ r ∈ f.validRoots roots, ∃ p, f.Walk r p b ∧ a ∉ p := by
  constructor
  · intro h
    induction h generalizing b with
    | entry => cases hb
    | @step u w _ huw hne ih =>
      have hab : a ≠ b := by
        rintro rfl
        exact hne (block?_inj hf hb ha)
      rcases (leads_iff hf hb).mp huw with ⟨_, hr⟩ | ⟨c, hc, hcb⟩
      · exact ⟨b, hr, [b], .single b, by simpa using hab⟩
      · obtain ⟨r, hr, p, hp, hap⟩ := ih hc
        refine ⟨r, hr, p ++ [b], hp.concat hcb, ?_⟩
        rw [List.mem_append, List.mem_singleton, not_or]
        exact ⟨hap, hab⟩
  · rintro ⟨r, hr, p, hp, hap⟩
    have hne : ∀ x c, (f.numbering roots).block? x = some c → c ≠ a → x ≠ v := by
      rintro x c hx hca rfl
      rw [ha] at hx
      exact hca (Option.some.inj hx).symm
    obtain ⟨x, hx⟩ := (exists_number_iff hf).mpr (f.reaches_of_mem hr)
    have hra : r ≠ a := fun he => hap (he ▸ hp.head_mem)
    have hstart : (f.numbering roots).Avoids v x :=
      .step (.entry (Nat.ne_of_gt (block?_bounds ha).1))
        ((leads_iff hf hx).mpr (Or.inl ⟨rfl, hr⟩)) (hne x r hx hra)
    clear hr
    -- The walk is followed from its first block, whose number is reached past `v`.
    induction hp generalizing x with
    | single c =>
      rw [block?_inj hf hb hx]
      exact hstart
    | @step c d b p hcd hp ih =>
      rw [List.mem_cons, not_or] at hap
      have hrd := (reaches_of_block? hf hx).successor hcd
      obtain ⟨y, hy⟩ := (exists_number_iff hf).mpr hrd
      have hda : d ≠ a := fun he => hap.2 (he ▸ hp.head_mem)
      exact ih hb hap.2 y hy hda
        (.step hstart ((leads_iff hf hy).mpr (Or.inr ⟨c, hx, hcd⟩)) (hne y d hy hda))

/-- Dominance of numbers is dominance of blocks. -/
theorem dominates_iff_flow (ha : (f.numbering roots).block? v = some a)
    (hb : (f.numbering roots).block? w = some b) :
    (f.numbering roots).Dominates v w ↔ f.Dominates roots a b := by
  unfold Dominates
  rw [avoids_iff hf ha hb]
  constructor
  · intro h r hr p hp
    apply Classical.byContradiction
    intro hap
    exact h ⟨r, hr, p, hp, hap⟩
  · rintro h ⟨r, hr, p, hp, hap⟩
    exact hap (h r hr p hp)

end

end Numbering

namespace Flow

variable {f : Flow} {roots : List Block} {a b : Block}

/-- What dominates a reachable block is reachable. -/
theorem Dominates.reaches (h : f.Dominates roots a b) (hb : f.Reaches roots b) :
    f.Reaches roots a := by
  obtain ⟨r, hr, p, hp⟩ := hb
  obtain ⟨q, _, hq, _, _⟩ := hp.split (h r hr p hp)
  exact ⟨r, hr, q, hq⟩

end Flow
end Dominance
