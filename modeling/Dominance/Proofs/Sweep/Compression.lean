import Dominance.Proofs.Correspondence
import Dominance.Proofs.Sweep.Actions

/-!
# Compression at any moment of the backward pass

At every moment of the backward pass, asking about a number gives a number of least semidominator on the
way up to the first ancestor that has not been linked. Asking compresses the way, but no answer that
follows tells whether it has been asked.
-/

namespace Dominance

variable {n : Numbering} {f : Forest} {done : List Sweep.Action} {k : Nat}

/-- The numbers from `k` on have an ancestor in the forest, and no others. -/
theorem Forest.Linked.ancestorOf_ne_none (h : f.Linked n k) (x : Nat) :
    f.ancestorOf x ≠ none ↔ k ≤ x ∧ x < n.size + 1 := by
  constructor
  · intro hx
    obtain ⟨a, ha, hle, _⟩ := h.exists_hangs hx
    exact ⟨(h.hangs_of_ancestor hle ha).1, Nat.lt_succ_of_le hle⟩
  · rintro ⟨hk, hlt⟩
    obtain ⟨a, ha, _⟩ := h.hangs x hk (Nat.le_of_lt_succ hlt)
    simp [ha]

namespace Sweep

/-- At every moment of the backward pass the numbers linked so far are those from some `k` on. -/
theorem exists_moment_linked (hn : n.DepthFirst) {rest : List Action} (h : actions n = done ++ rest) :
    ∃ k, 0 < k ∧ Orderly n (n.size + 1) done k ∧ Orderly n k rest 1 ∧
      (moment n done).forest.Linked n k ∧ ∀ w, w ∈ linked done ↔ k ≤ w ∧ w < n.size + 1 := by
  have horder := orderly_actions hn
  rw [h] at horder
  obtain ⟨k, hdone, hrest⟩ := horder.split
  obtain ⟨pos, hlinked⟩ := hdone.forest_linked hn (Nat.succ_pos _) (swept_start n).linked
  exact ⟨k, pos, hdone, hrest, hlinked, hdone.mem_linked.2⟩

/-- At every moment of the backward pass of an in-range flow, a number that has not been linked is its
own answer. The answer for a linked number lies on the way from it up to its first ancestor that has not
been linked, and has the least semidominator on that way. Asking changes no semidominator, no bucket and
no candidate, and the same numbers are linked before and after. Whatever moves come next, all that they
ask finds the semidominators that it would have found otherwise; the rest of the pass, which leads to its
end, is one sequence of such moves. -/
theorem ask_any_moment (f : Flow) (hf : f.InRange) (roots : List Block) (done rest : List Action)
    (h : actions (f.numbering roots) = done ++ rest) (v : Nat) (hv : v ≤ (f.numbering roots).size) :
    let n := f.numbering roots
    let s := moment n done
    let u := (s.forest.eval v).1
    let t := perform s (.ask v)
    (v ∉ linked done → u = v) ∧
    (v ∈ linked done → ∃ r, n.Ancestor r v ∧ r ∉ linked done ∧
      (∀ y, n.OnWay r v y → y ∈ linked done) ∧ n.OnWay r v u ∧
      ∀ y, n.OnWay r v y → s.forest.semiOf u ≤ s.forest.semiOf y) ∧
    t.forest.semi = s.forest.semi ∧ t.bucket = s.bucket ∧ t.idom = s.idom ∧
    (∀ w, s.forest.ancestorOf w ≠ none ↔ w ∈ linked done) ∧
    (∀ w, t.forest.ancestorOf w ≠ none ↔ w ∈ linked done) ∧
    (∀ moves, s.forest.AllowsAll moves → t.forest.found moves = s.forest.found moves) ∧
    s.forest.AllowsAll (rest.flatMap Action.moves) ∧ rest.foldl perform s = backward n := by
  intro n s u t
  have hn : n.DepthFirst := Numbering.depthFirst_numbering hf roots
  obtain ⟨k, pos, _, hrest, hlinked, hmem⟩ := exists_moment_linked hn h
  have hle : v ≤ n.size := hv
  have htidy := hlinked.tidy hn
  have hasked : t.forest.Linked n k := hlinked.eval hn pos hv
  refine ⟨?_, ?_, Forest.semi_eval _ _, rfl, rfl, ?_, ?_, ?_, hrest.allowsAll hn pos hlinked, ?_⟩
  · intro hnot
    apply hlinked.eval_of_lt
    rw [hmem] at hnot
    omega
  · intro hin
    rw [hmem] at hin
    obtain ⟨r, hr, hrk, hway⟩ := hn.exists_first_before pos hv
    obtain ⟨hu, hku, hleast⟩ : n.Ancestor u v ∧ k ≤ u ∧
        ∀ y, n.Ancestor y v → k ≤ y → s.forest.semiOf u ≤ s.forest.semiOf y :=
      hlinked.eval_least hn pos hin.1 hv
    refine ⟨r, hr, ?_, ?_, (hn.onWay_iff hr).mpr ⟨hu, by omega⟩, ?_⟩
    · rw [hmem]
      omega
    · intro y hy
      have := hn.ancestor_le_size hy.1 hv
      exact (hmem y).mpr ⟨hway y hy, by omega⟩
    · intro y hy
      exact hleast y hy.1 (hway y hy)
  · intro w
    rw [hlinked.ancestorOf_ne_none, hmem]
  · intro w
    rw [hasked.ancestorOf_ne_none, hmem]
  · intro moves hmoves
    exact (htidy.eval v).2.found_eq htidy (htidy.eval v).1 hmoves
  · rw [← moment_actions, moment, h, List.foldl_append]
    rfl

/-- A loop of three blocks that is entered at two of them. -/
def winding : Flow := .ofLists 4 #[[⟨2⟩, ⟨1⟩], [⟨2⟩], [⟨3⟩], [⟨1⟩]]

/-- All of the loop is linked and its last number has two more above it; the entry of the flow is still
to be linked. -/
theorem ask_winding :
    let n := winding.numbering [⟨0⟩]
    let done := (actions n).take 17
    let s := moment n done
    let moves := [.setSemi 1 0, .link 0 1, .ask 4, .ask 2]
    winding.InRange ∧ 1 ∉ linked done ∧ (s.forest.eval 1).1 = 1 ∧ 4 ∈ linked done ∧
      (∃ r, n.Ancestor r 4 ∧ r ∉ linked done ∧ n.OnWay r 4 (s.forest.eval 4).1 ∧
        ∀ y, n.OnWay r 4 y → s.forest.semiOf (s.forest.eval 4).1 ≤ s.forest.semiOf y) ∧
      (perform s (.ask 4)).forest.ancestorOf 4 ≠ s.forest.ancestorOf 4 ∧ s.forest.AllowsAll moves ∧
      (perform s (.ask 4)).forest.found moves = s.forest.found moves ∧ s.forest.found moves = [0, 0] := by
  intro n done s moves
  have hf : winding.InRange := Flow.inRange_ofLists (by decide)
  have hsplit : actions n = done ++ (actions n).drop 17 := (List.take_append_drop 17 _).symm
  have hlinked : 4 ∈ linked done := by decide +kernel
  have hnot : 1 ∉ linked done := by decide +kernel
  obtain ⟨hself, _⟩ := ask_any_moment winding hf [⟨0⟩] done _ hsplit 1 (by decide +kernel)
  obtain ⟨_, hway, _, _, _, _, _, hlater, _, _⟩ :=
    ask_any_moment winding hf [⟨0⟩] done _ hsplit 4 (by decide +kernel)
  obtain ⟨r, hr, hfirst, _, hon, hleast⟩ := hway hlinked
  have hmoves : s.forest.AllowsAll moves := by
    have hentry : (s.forest.setSemi 1 0).ancestorOf 0 = none := by decide +kernel
    have hroot : (s.forest.setSemi 1 0).ancestorOf 1 = none := by decide +kernel
    refine ⟨hroot, ⟨by decide +kernel, hroot, ?_⟩, trivial, trivial, trivial⟩
    intro hpass
    rcases (Forest.passes_iff hroot).mp hpass with h | ⟨_, hm⟩
    · cases h
    · exact hm.linked hentry
  exact ⟨hf, hnot, hself hnot, hlinked, ⟨r, hr, hfirst, hon, hleast⟩, by decide +kernel, hmoves,
    hlater moves hmoves, by decide +kernel⟩

end Sweep
end Dominance
