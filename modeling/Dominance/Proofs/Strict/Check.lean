import Dominance.Proofs.Strict.Order

/-!
# The self-check is strict and sound

A tree of a flow that leads past its block count may be wrong about dominance; there are trees in which
two blocks hang below each other, so that a way up never ends. The self-check follows ways up all the
same, from semidominators. It can: it goes through the positions in order, and at each it has made
sure that every earlier block hangs below a block of smaller position, so the ways up that it follows
do end. If it accepts, all ways up end, at roots.
-/

namespace Dominance

/-- A flow of two blocks in which others beyond them are visited twice, in different orders. -/
def Flow.astray : Flow := .ofLists 2 #[[⟨2⟩], [⟨4⟩, ⟨2⟩], [⟨3⟩], [⟨4⟩, ⟨1⟩], [⟨3⟩]]

namespace Tree

/-- Every block that stands before position `k` and hangs below another has a greater position than
that. -/
def DescendsTo (t : Tree) (k : Nat) : Prop :=
  ∀ w b d, w < k → t.blockAt? w = some b → t.idom? b = some d → ∃ i, t.position? d = some i ∧ i < w

variable {t : Tree} {a b c d : Block} {l : List Block} {fuel k w : Nat}

/-! ### Ways up -/

private theorem DescendsTo.succ (hk : t.DescendsTo w) (hb : t.blockAt? w = some b)
    (hd : ∀ d, t.idom? b = some d → ∃ i, t.position? d = some i ∧ i < w) :
    t.DescendsTo (w + 1) := by
  intro v c d hv hc hcd
  by_cases hvw : v = w
  · subst hvw
    rw [hb] at hc
    cases hc
    exact hd d hcd
  · exact hk v c d (by omega) hc hcd

private theorem WayUp.strict_climb (hw : t.WayUp b l) (hfuel : l.length ≤ fuel) :
    Strict.climb t fuel b = some l := by
  induction hw generalizing fuel with
  | top h =>
    cases fuel with
    | zero => cases hfuel
    | succ fuel => simp [Strict.climb, h]
  | up h _ ih =>
    cases fuel with
    | zero => cases hfuel
    | succ fuel =>
      rw [Strict.climb, h]
      simp only [ih (Nat.le_of_succ_le_succ hfuel)]
      rfl

private theorem WayUp.strict_climbsTo (hw : t.WayUp b l) (hfuel : l.length ≤ fuel) :
    Strict.climbsTo t a fuel b = some (l.contains a) := by
  induction hw generalizing fuel with
  | @top b h =>
    cases fuel with
    | zero => cases hfuel
    | succ fuel =>
      rw [Strict.climbsTo, h]
      by_cases hb : b = a
      · simp [hb]
      · simp [hb, Ne.symm hb]
  | @up b d l h _ ih =>
    cases fuel with
    | zero => cases hfuel
    | succ fuel =>
      rw [Strict.climbsTo, h]
      by_cases hb : b = a
      · simp [hb]
      · simp [hb, Ne.symm hb, ih (Nat.le_of_succ_le_succ hfuel)]

/-- Where a way up ends, the bound on its length makes no difference. -/
theorem WayUp.strict_dominates (hw : t.WayUp b l) (hfuel : l.length ≤ fuel) :
    Strict.dominates fuel t a b = some (t.dominates a b) := by
  unfold Strict.dominates dominates
  rw [hw.strict_climbsTo hfuel, climbsTo_eq, hw.climb hw.length_le]
  cases t.contains a && t.contains b <;> rfl

/-- A block before the given position has a way up, and its length is at most the position counted
from one. -/
theorem Shaped.exists_wayUp (h : t.Shaped) (hk : t.DescendsTo k) (hw : w < k)
    (hb : t.blockAt? w = some b) : ∃ l, t.WayUp b l ∧ l.length ≤ w + 1 := by
  induction w using Nat.strongRecOn generalizing b with
  | ind w ih =>
    cases hd : t.idom? b with
    | none => exact ⟨[b], .top hd, Nat.succ_le_succ (Nat.zero_le w)⟩
    | some d =>
      rcases hk w b d hw hb hd with ⟨i, hi, hiw⟩
      rcases ih i hiw (by omega) (h.blockAt?_of_position? d i hi) with ⟨l, hl, hlen⟩
      refine ⟨b :: l, .up hd hl, ?_⟩
      rw [List.length_cons]
      omega

/-! ### The check at a position -/

/-- Where nothing is wrong, a block that hangs nowhere is a root. -/
theorem isRoot_of_faultAt (hf : t.faultAt w b = none) (hd : t.idom? b = none) :
    t.isRoot b = true := by
  simp only [faultAt, hd] at hf
  by_cases hroot : t.isRoot b = true
  · exact hroot
  · split at hf <;> simp_all

/-- Where nothing is wrong, a block that hangs below another is no root, and it comes after the
other. -/
theorem descends_of_faultAt (hf : t.faultAt w b = none) (hd : t.idom? b = some d) :
    t.isRoot b = false ∧ ∃ i, t.position? d = some i ∧ i < w := by
  simp only [faultAt, hd] at hf
  split at hf
  · cases hf
  · split at hf
    · cases hf
    · next hroot =>
      split at hf
      · cases hf
      · next hpos =>
        simp only [Bool.not_eq_true, Bool.not_eq_false', Option.any_eq_true, decide_eq_true_eq]
          at hroot hpos
        exact ⟨hroot, hpos⟩

/-- At a position with nothing wrong before it the check looks up nothing that is absent and follows
no way up that does not end. -/
theorem Shaped.strict_faultAt (h : t.Shaped) (hk : t.DescendsTo w) (hb : t.blockAt? w = some b)
    (hfuel : t.size < fuel) : Strict.faultAt fuel t w b = some (t.faultAt w b) := by
  have hw : w < t.size := (Array.getElem?_eq_some_iff.mp hb).1
  have hv := h.semi.lt w hw
  have hshared : t.shared[w]? = some (t.shared.getD w false) :=
    Strict.getElem?_of_lt (h.shared_size ▸ hw) false
  unfold Strict.faultAt faultAt
  rw [h.semi.read hw, hshared]
  simp only [Option.bind_eq_bind, Option.bind_some]
  by_cases hlate : w < t.semi.getD w 0
  · rw [if_pos hlate, if_pos hlate]
  rw [if_neg hlate, if_neg hlate]
  cases hd : t.idom? b with
  | none => rfl
  | some d =>
    by_cases hroot : t.isRoot b = true
    · simp [hroot]
    by_cases hpos : (t.position? d).any (· < w) = true
    · -- The semidominator may be the block itself, so the ways up up to `w` are needed.
      have hdown : t.DescendsTo (w + 1) := by
        apply hk.succ hb
        intro e he
        rw [hd] at he
        cases he
        simpa only [Option.any_eq_true, decide_eq_true_eq] using hpos
      have hs : t.blockAt? (t.semi.getD w 0) = some t.order[t.semi.getD w 0] :=
        Array.getElem?_eq_getElem hv
      obtain ⟨l, hl, hlen⟩ := h.exists_wayUp hdown (by omega) hs
      have hread : t.order[t.semi.getD w 0]? = some t.order[t.semi.getD w 0] := hs
      simp only [hroot, hpos, hs, hread, Option.bind_some,
        hl.strict_dominates (show l.length ≤ fuel by omega)]
      cases t.shared.getD w false <;> rfl
    · simp [hroot, hpos]

/-! ### The whole check -/

/-- What comes after a fault is not looked at, so the check goes on only where nothing was wrong. -/
theorem Shaped.strict_firstFault (h : t.Shaped) {bs : List Block} (hbs : t.order.toList.drop w = bs)
    (hk : t.DescendsTo w) (hfuel : t.size < fuel) :
    Strict.firstFault fuel t (bs.zipIdx w) =
      some ((bs.zipIdx w).findSome? fun x => t.faultAt x.2 x.1) := by
  induction bs generalizing w with
  | nil => rfl
  | cons b bs ih =>
    have hb : t.blockAt? w = some b := by
      have hhead := congrArg List.head? hbs
      rwa [List.head?_drop, Array.getElem?_toList] at hhead
    have htail : t.order.toList.drop (w + 1) = bs := by
      have := congrArg List.tail hbs
      rwa [List.tail_drop] at this
    rw [List.zipIdx_cons, Strict.firstFault, h.strict_faultAt hk hb hfuel, List.findSome?_cons]
    cases hf : t.faultAt w b with
    | some e => rfl
    | none => exact ih htail (hk.succ hb fun d hd => (descends_of_faultAt hf hd).2)

private theorem fault?_eq (t : Tree) :
    t.fault? = ((t.order.toList.zipIdx.findSome? fun x => t.faultAt x.2 x.1).or
      t.orderLengthFault).or t.orderFault := by
  unfold fault?
  split
  · next e he =>
    have hfirst : t.order.toList.zipIdx.findSome? (fun x => t.faultAt x.2 x.1) = some e := he
    rw [hfirst]
    rfl
  · next he =>
    have hfirst : t.order.toList.zipIdx.findSome? (fun x => t.faultAt x.2 x.1) = none := he
    rw [hfirst, Option.none_or]
    cases t.orderLengthFault <;> rfl

/-- The self-check has an answer on every tree of this shape. -/
theorem Shaped.strict_verify (h : t.Shaped) (hfuel : t.size < fuel) :
    Strict.verify fuel t = some t.verify := by
  have hfirst : Strict.firstFault fuel t t.order.toList.zipIdx =
      some (t.order.toList.zipIdx.findSome? fun x => t.faultAt x.2 x.1) :=
    h.strict_firstFault rfl (fun _ _ _ hw => absurd hw (Nat.not_lt_zero _)) hfuel
  have hfault : Strict.fault fuel t = some t.fault? := by
    unfold Strict.fault
    rw [fault?_eq, hfirst]
    cases t.order.toList.zipIdx.findSome? fun x => t.faultAt x.2 x.1 with
    | some e => rfl
    | none =>
      simp only [Option.bind_eq_bind, Option.bind_some, h.strict_topological hfuel, Option.none_or]
      unfold Strict.orderFault orderLengthFault
      by_cases hlen : t.topological.length = t.size
      · rw [if_pos hlen, if_pos hlen]
        rfl
      · rw [if_neg hlen, if_neg hlen]
        rfl
  unfold Strict.verify verify
  rw [hfault]
  cases t.fault? <;> rfl

/-- Where the self-check accepts, nothing is wrong at any position. -/
theorem faultAt_of_verify (hok : t.verify = .ok ()) (hb : t.blockAt? w = some b) :
    t.faultAt w b = none := by
  have hnone : t.fault? = none := by
    unfold verify at hok
    split at hok
    · next h => exact h
    · cases hok
  rw [fault?_eq, Option.or_eq_none_iff, Option.or_eq_none_iff, List.findSome?_eq_none_iff] at hnone
  apply hnone.1.1 (b, w)
  rw [List.mem_zipIdx_iff_getElem?, Array.getElem?_toList]
  exact hb

private theorem descendsTo_of_verify (hok : t.verify = .ok ()) : t.DescendsTo k :=
  fun _ _ _ _ hb hd => (descends_of_faultAt (faultAt_of_verify hok hb) hd).2

/-- A way up in an accepted tree goes down in positions and ends at a root. -/
theorem Shaped.wayUp_accepted (h : t.Shaped) (hok : t.verify = .ok ()) (hw : t.WayUp b l)
    (hb : t.position? b = some w) :
    l.IsChain (fun c d => ∃ i j, t.position? c = some i ∧ t.position? d = some j ∧ j < i) ∧
      ∃ r ∈ t.roots, l.getLast? = some r := by
  induction hw generalizing w with
  | @top b hd =>
    have hroot := isRoot_of_faultAt (faultAt_of_verify hok (h.blockAt?_of_position? b w hb)) hd
    exact ⟨.singleton b, b, List.contains_iff_mem.mp hroot, rfl⟩
  | @up b d l hd hl ih =>
    rcases descendsTo_of_verify hok w b d (Nat.lt_succ_self w) (h.blockAt?_of_position? b w hb) hd
      with ⟨i, hi, hiw⟩
    rcases ih hi with ⟨hchain, r, hr, hlast⟩
    refine ⟨?_, r, hr, ?_⟩
    · apply hchain.cons
      intro c hc
      rw [hl.head?] at hc
      cases hc
      exact ⟨w, i, hb, hi, hiw⟩
    · rw [List.getLast?_cons, hlast]
      rfl

/-- Roots of an accepted tree hang nowhere. -/
theorem Shaped.idom?_root_accepted (h : t.Shaped) (hok : t.verify = .ok ()) (hb : b ∈ t.roots) :
    t.idom? b = none := by
  rcases exists_position_of_contains (h.contains_root b hb) with ⟨w, hw⟩
  cases hd : t.idom? b with
  | none => rfl
  | some d =>
    have hf := faultAt_of_verify hok (h.blockAt?_of_position? b w hw)
    have hroot := (descends_of_faultAt hf hd).1
    rw [isRoot, List.contains_iff_mem.mpr hb] at hroot
    cases hroot

/-- The self-check ends on the tree of every flow, whatever the flow leads to: it has an answer without
defaults and bounds. If it accepts, then no root has an immediate dominator, and the chain of every
reached block ends in the same sense, goes down in positions from each block to the next, and leads to
a root. -/
theorem verify_sound (f : Flow) (roots : List Block) (cap : Option Nat) (fuel : Nat)
    (hfuel : (Numbering.ofRoots f roots cap).size < fuel) :
    let t := (ofNumbering roots (Numbering.ofRoots f roots cap)).value
    Strict.verify fuel t = some t.verify ∧
    (t.verify = .ok () →
      (∀ r ∈ t.roots, t.idom? r = none) ∧
      ∀ b, t.contains b = true →
        Strict.dominators fuel t b = some (t.dominators b) ∧
        (t.dominators b).head? = some b ∧
        (t.dominators b).IsChain (fun c d => t.idom? c = some d) ∧
        (t.dominators b).IsChain
          (fun c d => ∃ i j, t.position? c = some i ∧ t.position? d = some j ∧ j < i) ∧
        ∃ r ∈ t.roots, (t.dominators b).getLast? = some r) := by
  intro t
  have hn := Numbering.ranked_ofRoots f roots cap
  have ht : t.Shaped := shaped_ofSweep hn (Sweep.strict_run hn hfuel).2 roots
  refine ⟨ht.strict_verify hfuel, fun hok => ⟨fun r hr => ht.idom?_root_accepted hok hr, ?_⟩⟩
  intro b hb
  rcases exists_position_of_contains hb with ⟨w, hw⟩
  have hblock := ht.blockAt?_of_position? b w hw
  have hlt : w < t.size := (Array.getElem?_eq_some_iff.mp hblock).1
  obtain ⟨l, hl, hlen⟩ := ht.exists_wayUp (descendsTo_of_verify hok) hlt hblock
  obtain ⟨hchain, hroot⟩ := ht.wayUp_accepted hok hl hw
  have hdominators : t.dominators b = l := by
    rw [dominators, if_pos hb, hl.climb hl.length_le]
  have hsize : t.size < fuel := hfuel
  rw [hdominators, Strict.dominators, if_pos hb]
  exact ⟨hl.strict_climb (by omega), hl.head?, hl.isChain, hchain, hroot⟩

/-- One tree is accepted although one of its blocks was visited twice. In another two blocks hang below
each other; the self-check ends all the same, and refuses it. -/
theorem verify_sound_beyond :
    (let t := (build Flow.beyond [⟨0⟩]).value
     t.size < 5 ∧ t.order = #[⟨0⟩, ⟨2⟩, ⟨3⟩, ⟨2⟩] ∧ Strict.verify 5 t = some (.ok ()) ∧
      t.idom? ⟨0⟩ = none ∧ t.dominators ⟨3⟩ = [⟨3⟩, ⟨0⟩] ∧
      Strict.dominators 5 t ⟨3⟩ = some (t.dominators ⟨3⟩) ∧
      (t.dominators ⟨3⟩).IsChain
        (fun c d => ∃ i j, t.position? c = some i ∧ t.position? d = some j ∧ j < i)) ∧
    (let t := (build Flow.astray [⟨2⟩, ⟨0⟩]).value
     t.size < 9 ∧ t.idom? ⟨1⟩ = some ⟨3⟩ ∧ t.idom? ⟨3⟩ = some ⟨1⟩ ∧
      Strict.verify 9 t = some (.error (.malformed (.lateSemidominator ⟨3⟩ 4 2) none))) := by
  constructor
  · have hsize : (Numbering.ofRoots Flow.beyond [⟨0⟩] none).size < 5 := by decide +kernel
    have hnone : (build Flow.beyond [⟨0⟩]).value.fault? = none := by decide +kernel
    have hok : (build Flow.beyond [⟨0⟩]).value.verify = .ok () := by rw [verify, hnone]
    obtain ⟨hverify, hsound⟩ := verify_sound Flow.beyond [⟨0⟩] none 5 hsize
    obtain ⟨hroots, hchains⟩ := hsound hok
    obtain ⟨hdominators, _, _, hchain, _⟩ := hchains ⟨3⟩ (by decide +kernel)
    refine ⟨hsize, by decide +kernel, ?_, hroots ⟨0⟩ (by decide +kernel), by decide +kernel,
      hdominators, hchain⟩
    rw [← hok]
    exact hverify
  · have hsize : (Numbering.ofRoots Flow.astray [⟨2⟩, ⟨0⟩] none).size < 9 := by decide +kernel
    have hfault : (build Flow.astray [⟨2⟩, ⟨0⟩]).value.fault? =
        some (.lateSemidominator ⟨3⟩ 4 2) := by decide +kernel
    have herror : (build Flow.astray [⟨2⟩, ⟨0⟩]).value.verify =
        .error (.malformed (.lateSemidominator ⟨3⟩ 4 2) none) := by rw [verify, hfault]
    refine ⟨hsize, by decide +kernel, by decide +kernel, ?_⟩
    rw [← herror]
    exact (verify_sound Flow.astray [⟨2⟩, ⟨0⟩] none 9 hsize).1

end Tree
end Dominance
