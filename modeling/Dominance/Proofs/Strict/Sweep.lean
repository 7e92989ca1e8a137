import Dominance.Proofs.Strict.Forest

/-!
# Strict sweeps

The strict passes over a ranked numbering have answers, and these are the states of the passes. So has
the traversal that makes the numbering. One more unit of fuel than there are numbers is enough for
every loop.
-/

namespace Dominance

/-! ### Numbers -/

namespace Strict

variable {f : Flow} {p : Preorder} {cap : Option Nat} {fuel : Nat}

private theorem elim_take_cons {b : Block} {bs : List Block} (h : cap ≠ some 0) :
    cap.elim (b :: bs) (b :: bs).take = b :: (cap.map (· - 1)).elim bs bs.take := by
  rcases cap with _ | _ | k
  · rfl
  · exact absurd rfl h
  · rfl

/-- A traversal ends with fuel for one more block than it visits. -/
theorem visits_eq_some (h : (cap.elim (Preorder.rest f p) (Preorder.rest f p).take).length < fuel) :
    visits f fuel cap p = some (cap.elim (Preorder.rest f p) (Preorder.rest f p).take) := by
  induction fuel generalizing cap p with
  | zero => cases h
  | succ fuel ih =>
    rw [visits]
    split
    · next hcap =>
      rw [hcap]
      rfl
    · next hcap =>
      split
      · next hnext =>
        rw [Preorder.rest_of_none hnext]
        cases cap <;> simp
      · next b q hnext =>
        rw [Preorder.rest_of_some hnext, elim_take_cons hcap] at h ⊢
        rw [ih (Nat.lt_of_succ_lt_succ h)]
        rfl

/-- The numbering of any flow is made, whatever its roots and its cap. -/
theorem numbering_eq_some (f : Flow) (roots : List Block) (cap : Option Nat)
    (h : (Numbering.ofRoots f roots cap).size < fuel) :
    numbering fuel f roots cap = some (Numbering.ofRoots f roots cap) := by
  have hcap : Numbering.ofRoots f roots cap =
      Numbering.ofOrder f roots (cap.elim (f.preorder roots) (f.preorder roots).take) := by
    cases cap <;> rfl
  rw [hcap] at h ⊢
  rw [Numbering.size_ofOrder] at h
  unfold numbering
  rw [visits_eq_some h]
  rfl

private theorem blockOf_eq_some {n : Numbering} {w : Nat} (hw : w < n.size + 1) :
    blockOf n w = some (n.block? w) := by
  cases w with
  | zero => rfl
  | succ i =>
    have hi : i < n.order.size := Nat.lt_of_succ_lt_succ hw
    simp only [blockOf, Numbering.block?, Array.getElem?_eq_getElem hi]
    rfl

end Strict

namespace Numbering

/-- The numbers of any flow and roots, with or without a cap, are ranked. -/
theorem ranked_ofRoots (f : Flow) (roots : List Block) (cap : Option Nat) :
    (ofRoots f roots cap).Ranked := ranked_ofOrder f roots _

end Numbering

/-! ### The two passes -/

namespace Sweep

/-- The state after the first `k` steps of the backward pass. -/
def after (n : Numbering) (k : Nat) : Sweep :=
  ((countdown n.size).take k).foldl (step n) (start (n.size + 1))

/-- The forest has arisen by moves of the passes, and every number named is present. -/
structure Bounded (n : Numbering) (s : Sweep) : Prop where
  forest : s.forest.Arises n
  idom : Strict.Closed (n.size + 1) s.idom
  bucket_lt : ∀ p v, s.bucket.contains p v = true → v < n.size + 1
  resolved_lt : ∀ r ∈ s.resolved,
    r.number < n.size + 1 ∧ r.semi < n.size + 1 ∧ r.candidate < n.size + 1

variable {n : Numbering} {s : Sweep} {forest : Forest} {fuel p v w : Nat}

private theorem bounded_start (n : Numbering) : (start (n.size + 1)).Bounded n where
  forest := .isolated
  idom := .zeros _
  bucket_lt p v h := by
    change (Multimap.empty : Multimap Nat Nat).contains p v = true at h
    rw [Multimap.contains_empty] at h
    cases h
  resolved_lt r h := by simp [start] at h

/-- Taking predecessors into account. -/
theorem strict_lower (hn : n.Ranked) {x : Forest × Nat} (hf : x.1.Arises n) (hx : x.2 < n.size + 1)
    (hv : v < n.size + 1) (hfuel : n.size < fuel) :
    Strict.lower fuel x v = some (lower x v) ∧ (lower x v).1.Arises n ∧
      (lower x v).2 < n.size + 1 := by
  obtain ⟨heval, hu, hg⟩ := hf.strict_eval hn hv hfuel
  have hlower : lower x v = ((x.1.eval v).2, min x.2 ((x.1.eval v).2.semiOf (x.1.eval v).1)) := rfl
  rw [hlower]
  refine ⟨?_, hg, Nat.lt_of_le_of_lt (Nat.min_le_left _ _) hx⟩
  unfold Strict.lower
  rw [heval]
  simp only [Option.bind_eq_bind, Option.bind_some, (hg.ranked hn).read_semi hu]

namespace Bounded

/-- Resolving a waiting number. -/
theorem strict_resolve (hn : n.Ranked) (h : s.Bounded n) (hp : p < n.size + 1)
    (hv : v < n.size + 1) (hfuel : n.size < fuel) :
    Strict.resolve fuel p s v = some (resolve p s v) ∧ (resolve p s v).Bounded n := by
  obtain ⟨heval, hu, hg⟩ := h.forest.strict_eval hn hv hfuel
  have hgr := hg.ranked hn
  rw [resolve_def]
  constructor
  · unfold Strict.resolve
    rw [heval]
    simp only [Option.bind_eq_bind, Option.bind_some, hgr.read_semi hu, hgr.read_semi hv,
      h.idom.write hv]
  · have hc : (if (s.forest.eval v).2.semiOf (s.forest.eval v).1 < (s.forest.eval v).2.semiOf v then
        (s.forest.eval v).1 else p) < n.size + 1 := by
      split
      · exact hu
      · exact hp
    refine ⟨hg, h.idom.set hc v, h.bucket_lt, ?_⟩
    intro r hr
    rcases Array.mem_push.mp hr with hr | rfl
    · exact h.resolved_lt r hr
    · exact ⟨hv, hgr.semi.lt v hv, hc⟩

/-- Finding the semidominator of a number. -/
theorem strict_lowers (hn : n.Ranked) (h : s.Bounded n) (hw : w < n.size + 1)
    (hfuel : n.size < fuel) :
    (n.predsOf w).foldlM (Strict.lower fuel) (s.forest, s.forest.semiOf w) =
        some ((n.predsOf w).foldl lower (s.forest, s.forest.semiOf w)) ∧
      ((n.predsOf w).foldl lower (s.forest, s.forest.semiOf w)).1.Arises n ∧
      ((n.predsOf w).foldl lower (s.forest, s.forest.semiOf w)).2 < n.size + 1 :=
  Strict.foldlM_eq_some (P := fun x : Forest × Nat => x.1.Arises n ∧ x.2 < n.size + 1)
    (fun _ v hv hx => strict_lower hn hx.1 hx.2 (hn.preds_lt w v hv) hfuel)
    ⟨h.forest, (h.forest.ranked hn).semi.lt w hw⟩

private theorem lt_of_mem_insert (h : s.Bounded n) {least : Nat} (hw : w < n.size + 1)
    (hv : (s.bucket.insert least w).contains p v = true) : v < n.size + 1 := by
  rcases (Multimap.contains_insert _ _ _ _ _).mp hv with hv | ⟨_, rfl⟩
  · exact h.bucket_lt p v hv
  · exact hw

/-- Linking a number whose semidominator has been found. -/
theorem link (h : s.Bounded n) (hf : forest.Arises n) {least : Nat} (hleast : least < n.size + 1)
    (pos : 0 < w) (hw : w ≤ n.size) :
    Bounded n ⟨(forest.setSemi w least).link (n.parentOf w) w,
      (s.bucket.insert least w).erase (n.parentOf w), s.idom, s.resolved⟩ where
  forest := (hf.setSemi hleast).link pos hw
  idom := h.idom
  bucket_lt _ _ hv :=
    h.lt_of_mem_insert (Nat.lt_succ_of_le hw) ((Multimap.contains_erase _ _ _ _).mp hv).2
  resolved_lt := h.resolved_lt

/-- One number of the backward pass. -/
theorem strict_step (hn : n.Ranked) (h : s.Bounded n) (pos : 0 < w) (hw : w ≤ n.size)
    (hfuel : n.size < fuel) :
    Strict.step fuel n s w = some (step n s w) ∧ (step n s w).Bounded n := by
  have hlt : w < n.size + 1 := Nat.lt_succ_of_le hw
  have hparent : n.parent[w]? = some (n.parentOf w) :=
    Strict.getElem?_of_lt (hn.parent_size ▸ hlt) 0
  have hpreds : n.preds[w]? = some (n.predsOf w) := Strict.getElem?_of_lt (hn.preds_size ▸ hlt) []
  obtain ⟨hfold, hf, hleast⟩ := h.strict_lowers hn hlt hfuel
  rw [step_def]
  generalize (n.predsOf w).foldl lower (s.forest, s.forest.semiOf w) = r at hfold hf hleast
  have hr := hf.ranked hn
  have hdue : ∀ v ∈ (s.bucket.insert r.2 w).values (n.parentOf w), v < n.size + 1 := fun v hv =>
    h.lt_of_mem_insert hlt (Multimap.mem_values.mp hv)
  have hresolve := Strict.foldlM_eq_some
    (fun s v hv (hs : Bounded n s) => hs.strict_resolve hn (hn.parent_lt w) (hdue v hv) hfuel)
    (h.link hf hleast pos hw)
  refine ⟨?_, hresolve.2⟩
  unfold Strict.step
  simp only [Option.bind_eq_bind, Option.bind_some, hparent, hpreds,
    (h.forest.ranked hn).read_semi hlt, hfold, hr.semi.write hlt,
    Strict.write_of_lt (hr.ancestor_size ▸ hlt)]
  exact hresolve.1

/-- The backward pass over any list of numbers. -/
theorem strict_steps (hn : n.Ranked) (h : s.Bounded n) {ws : List Nat}
    (hws : ∀ w ∈ ws, 0 < w ∧ w ≤ n.size) (hfuel : n.size < fuel) :
    ws.foldlM (Strict.step fuel n) s = some (ws.foldl (step n) s) ∧
      (ws.foldl (step n) s).Bounded n :=
  Strict.foldlM_eq_some
    (fun _ w hw hs => strict_step hn hs (hws w hw).1 (hws w hw).2 hfuel) h

end Bounded

private theorem mem_countdown {count : Nat} : w ∈ countdown count ↔ 0 < w ∧ w ≤ count := by
  rw [countdown, List.mem_reverse, List.mem_range'_1]
  omega

/-- The forest at any stage of the backward pass has arisen by moves of the passes. -/
theorem arises_after (hn : n.Ranked) (k : Nat) : (after n k).forest.Arises n := by
  have hws : ∀ w ∈ (countdown n.size).take k, 0 < w ∧ w ≤ n.size := fun w hw =>
    mem_countdown.mp (List.mem_of_mem_take hw)
  have h := (bounded_start n).strict_steps hn hws (Nat.lt_succ_self n.size)
  exact h.2.forest

/-- One number of the forward pass. -/
theorem strict_settle {idom : Array Nat} (hf : forest.Ranked n)
    (h : Strict.Closed (n.size + 1) idom) (hw : w < n.size + 1) :
    Strict.settle forest idom w = some (settle forest idom w) ∧
      Strict.Closed (n.size + 1) (settle forest idom w) := by
  have hd := h.lt w hw
  rw [settle_def]
  unfold Strict.settle
  simp only [Option.bind_eq_bind, Option.bind_some, h.read hw, hf.read_semi hw, h.read hd,
    h.write hw]
  split
  · exact ⟨rfl, h⟩
  · exact ⟨rfl, h.set (h.lt _ hd) w⟩

/-- Both passes over a ranked numbering. -/
theorem strict_run (hn : n.Ranked) (hfuel : n.size < fuel) :
    Strict.run fuel n = some (run n) ∧ (run n).Bounded n := by
  obtain ⟨hback, hs⟩ : Strict.backward fuel n = some (backward n) ∧ (backward n).Bounded n :=
    (bounded_start n).strict_steps hn (fun _ hw => mem_countdown.mp hw) hfuel
  have hrange : ∀ w ∈ List.range' 1 n.size, w < n.size + 1 := by
    intro w hw
    rw [List.mem_range'_1] at hw
    omega
  obtain ⟨hforward, hidom⟩ := Strict.foldlM_eq_some
    (fun _ w hw h => strict_settle (hs.forest.ranked hn) h (hrange w hw)) hs.idom
  constructor
  · unfold Strict.run
    simp only [Option.bind_eq_bind, Option.bind_some, hback, hforward]
    rfl
  · exact ⟨hs.forest, hidom, hs.bucket_lt, hs.resolved_lt⟩

/-- The records of the passes. -/
theorem Bounded.strict_events (h : s.Bounded n) :
    s.resolved.toList.mapM (Strict.event n) = some (s.events n) := by
  apply Strict.mapM_eq_some
  intro r hr
  obtain ⟨hnumber, hsemi, hcandidate⟩ := h.resolved_lt r (Array.mem_def.mpr hr)
  unfold Strict.event
  simp only [Option.bind_eq_bind, Option.bind_some, Strict.blockOf_eq_some hnumber,
    Strict.blockOf_eq_some hsemi, Strict.blockOf_eq_some hcandidate]

end Sweep
end Dominance
