import Dominance.Proofs.Sweep.Compression
import Dominance.Tree.Build

/-!
# Buckets lose nothing and give nothing away early

A number waits in the bucket of its semidominator until a child of the semidominator is linked. The first
child to be linked after it is the one above it, so by then all of the way up to the semidominator is
linked and the semidominator is not. Each number has one such child. Hence the backward pass resolves
every number once and leaves no bucket behind, and every candidate that the forward pass looks up has been
settled.
-/

namespace Dominance
namespace Multimap

/-- Every key that is present has a value. -/
def Filled (m : Multimap Nat Nat) : Prop := ∀ k, m.containsKey k = true → ∃ v, m.contains k v = true

variable {m : Multimap Nat Nat}

private theorem filled_empty : (empty : Multimap Nat Nat).Filled := by
  intro k hk
  rw [containsKey_empty] at hk
  cases hk

private theorem Filled.insert (h : m.Filled) (k v : Nat) : (m.insert k v).Filled := by
  intro j hj
  rcases (m.containsKey_insert k j v).mp hj with rfl | hj
  · exact ⟨v, (m.contains_insert _ _ v v).mpr (Or.inr ⟨rfl, rfl⟩)⟩
  · obtain ⟨x, hx⟩ := h j hj
    exact ⟨x, (m.contains_insert k j v x).mpr (Or.inl hx)⟩

private theorem Filled.erase (h : m.Filled) (k : Nat) : (m.erase k).Filled := by
  intro j hj
  obtain ⟨hne, hj⟩ := (m.containsKey_erase k j).mp hj
  obtain ⟨x, hx⟩ := h j hj
  exact ⟨x, (m.contains_erase k j x).mpr ⟨hne, hx⟩⟩

/-- If every key has a value and there is no value, there is no key. -/
theorem Filled.eq_empty (h : m.Filled) (hm : ∀ k v, ¬m.contains k v = true) : m = empty := by
  apply Multimap.eq_empty
  intro k hk
  obtain ⟨v, hv⟩ := h k hk
  exact hm k v hv

end Multimap

namespace Numbering

variable {n : Numbering} {v w x : Nat}

/-- A number is due once only. -/
theorem Due.unique (hw : n.Due w v) (hx : n.Due x v) : w = x := by
  obtain ⟨hwv, _, hpw, hnot⟩ := hw
  obtain ⟨hxv, _, hpx, hnot'⟩ := hx
  have hp : n.parentOf x = n.parentOf w := by rw [← hpx, hpw]
  rcases Nat.lt_trichotomy w x with hlt | he | hlt
  · exact absurd hp (hnot x hlt hxv)
  · exact he
  · exact absurd hp.symm (hnot' w hlt hwv)

/-- Every number is due when the child of its semidominator above it is linked. -/
theorem DepthFirst.exists_due (hn : n.DepthFirst) (pos : 0 < v) (hv : v ≤ n.size) :
    ∃ w, 0 < w ∧ w ≤ n.size ∧ n.Due w v := by
  have hne : n.semi v ≠ v := Nat.ne_of_lt (hn.semi_lt pos hv)
  obtain ⟨c, hc, hcs, hp, hcv⟩ := (hn.semi_ancestor pos hv).child hne
  refine ⟨c, hc, hcs, hn.le_of_ancestor hcv, hv, hp.symm, ?_⟩
  intro y hcy hyv he
  -- What comes between the child and the number lies below the child, so its parent does too.
  have hup : n.Ancestor c (n.parentOf y) := (hn.ancestor_between hcv (by omega) hyv).parent (by omega)
  rw [he] at hup
  have hle := hn.le_of_ancestor hup
  have hlt := hn.parent_lt c hc hcs
  omega

end Numbering

namespace Sweep

variable {n : Numbering} {s : Sweep} {done rest : List Action} {j p v w : Nat}

/-! ## What is put into buckets and what is resolved -/

private theorem Swept.awaiting_at (hn : n.DepthFirst) (h : Swept n (w + 1) s) (pos : 0 < w)
    (hw : w ≤ n.size) :
    (actionsAt n s w).filterMap Action.awaiting? = [(n.semi w, w)] := by
  rw [h.actionsAt_eq hn pos hw]
  simp [List.filterMap_cons, List.filterMap_map, Function.comp_def, Action.awaiting?]

private theorem Swept.resolved_at (hn : n.DepthFirst) (h : Swept n (w + 1) s) (pos : 0 < w)
    (hw : w ≤ n.size) :
    (actionsAt n s w).filterMap Action.resolved? =
      (s.bucket.insert (n.semi w) w).values (n.parentOf w) := by
  rw [h.actionsAt_eq hn pos hw]
  simp [List.filterMap_cons, List.filterMap_map, Function.comp_def, Action.resolved?]

/-- From any number down, each number is put into the bucket of its semidominator. -/
theorem Swept.awaiting_from (hn : n.DepthFirst) (hj : j ≤ n.size) (h : Swept n (j + 1) s) :
    (actionsFrom n s (countdown j)).filterMap Action.awaiting? =
      (countdown j).map fun w => (n.semi w, w) := by
  induction j generalizing s with
  | zero => rfl
  | succ j ih =>
    rw [countdown_succ, actionsFrom, List.filterMap_append, h.awaiting_at hn (by omega) hj,
      ih (by omega) (h.step hn (by omega) hj)]
    rfl

/-- From any number down, what is due is resolved, and nothing twice. -/
theorem Swept.resolved_from (hn : n.DepthFirst) (hj : j ≤ n.size) (h : Swept n (j + 1) s) :
    ((actionsFrom n s (countdown j)).filterMap Action.resolved?).Nodup ∧
      ∀ v, v ∈ (actionsFrom n s (countdown j)).filterMap Action.resolved? ↔
        ∃ w, 0 < w ∧ w ≤ j ∧ n.Due w v := by
  induction j generalizing s with
  | zero =>
    refine ⟨List.nodup_nil, fun v => ⟨fun hv => absurd hv List.not_mem_nil, ?_⟩⟩
    rintro ⟨w, hw, hw0, _⟩
    omega
  | succ j ih =>
    obtain ⟨hnodup, hmem⟩ := ih (by omega) (h.step hn (by omega) hj)
    rw [countdown_succ, actionsFrom, List.filterMap_append, h.resolved_at hn (by omega) hj]
    constructor
    · refine List.nodup_append.mpr ⟨Multimap.nodup_values _ _, hnodup, ?_⟩
      rintro v hv _ hv' rfl
      obtain ⟨w, _, hwj, hdue⟩ := (hmem v).mp hv'
      have := hdue.unique ((h.mem_due hj).mp hv)
      omega
    · intro v
      rw [List.mem_append, h.mem_due hj, hmem]
      constructor
      · rintro (hdue | ⟨w, pos, hwj, hdue⟩)
        · exact ⟨j + 1, by omega, Nat.le_refl _, hdue⟩
        · exact ⟨w, pos, by omega, hdue⟩
      · rintro ⟨w, pos, hwj, hdue⟩
        rcases Nat.lt_or_eq_of_le hwj with hlt | rfl
        · exact Or.inr ⟨w, pos, by omega, hdue⟩
        · exact Or.inl hdue

/-- Every number is put into one bucket, that of its semidominator, the last number first. -/
theorem awaiting_actions (hn : n.DepthFirst) :
    (actions n).filterMap Action.awaiting? = (countdown n.size).map fun w => (n.semi w, w) :=
  (swept_start n).awaiting_from hn (Nat.le_refl _)

/-- Every number is resolved once. -/
theorem resolved_actions (hn : n.DepthFirst) :
    ((actions n).filterMap Action.resolved?).Perm (List.range' 1 n.size) := by
  obtain ⟨hnodup, hmem⟩ := (swept_start n).resolved_from hn (Nat.le_refl _)
  refine (List.perm_ext_iff_of_nodup hnodup List.nodup_range').mpr fun v => ?_
  rw [hmem, List.mem_range'_1]
  constructor
  · rintro ⟨w, pos, _, hwv, hv, _⟩
    omega
  · rintro ⟨pos, hv⟩
    exact hn.exists_due pos (by omega)

/-- A number is resolved out of the bucket of its semidominator, which has not been linked then, while
all of the way up to it has. -/
theorem linked_of_resolve (hn : n.DepthFirst) (h : actions n = done ++ .resolve p v :: rest) :
    p = n.semi v ∧ n.Ancestor p v ∧ p ∉ linked done ∧ ∀ y, n.OnWay p v y → y ∈ linked done := by
  obtain ⟨k, pos, _, hrest, _, hmem⟩ := exists_moment_linked hn h
  cases hrest with
  | resolve hkv hv hp _ =>
    have hanc := hn.semi_ancestor (Nat.lt_of_lt_of_le pos hkv) hv
    have hlt := hn.parent_lt k pos (Nat.le_trans hkv hv)
    refine ⟨rfl, hanc, ?_, ?_⟩
    · rw [hmem]
      omega
    · intro y hy
      obtain ⟨hyv, hsy⟩ := (hn.onWay_iff hanc).mp hy
      have hky : k ≤ y := hn.le_of_parent_lt hyv (by omega) hkv
      exact (hmem y).mpr ⟨hky, Nat.lt_succ_of_le (hn.ancestor_le_size hyv hv)⟩

/-! ## Empty buckets -/

/-- No action leaves a bucket without a number in it. -/
theorem filled_perform (h : s.bucket.Filled) (a : Action) : (perform s a).bucket.Filled := by
  cases a with
  | await p w => exact h.insert p w
  | release p => exact h.erase p
  | resolve p v =>
    have hbucket : (perform s (.resolve p v)).bucket = s.bucket := (resolve_eq p s v).2.1
    rw [hbucket]
    exact h
  | ask v => exact h
  | setSemi w least => exact h
  | link p w => exact h

private theorem filled_foldl (h : s.bucket.Filled) (as : List Action) :
    (as.foldl perform s).bucket.Filled := by
  induction as generalizing s with
  | nil => exact h
  | cons a as ih => exact ih (filled_perform h a)

/-- Nothing waits when the backward pass is over, so no bucket is left. -/
theorem bucket_backward (hn : n.DepthFirst) : (backward n).bucket = .empty := by
  have hfilled : (backward n).bucket.Filled := by
    rw [← moment_actions]
    exact filled_foldl Multimap.filled_empty (actions n)
  apply hfilled.eq_empty
  intro q v hv
  obtain ⟨pos, hvs, he, hnot⟩ := ((swept_backward hn).waiting q v).mp hv
  obtain ⟨w, hw, _, hwv, _, hp, _⟩ := hn.exists_due pos hvs
  exact hnot w hw hwv (by rw [← hp, he])

/-! ## Records -/

/-- The resolutions of the state are those of the actions. -/
theorem resolved_foldl (as : List Action) (s : Sweep) :
    (as.foldl perform s).resolved.toList.map Resolution.number =
      s.resolved.toList.map Resolution.number ++ as.filterMap Action.resolved? := by
  induction as generalizing s with
  | nil => simp
  | cons a as ih =>
    rw [List.foldl_cons, ih]
    cases a with
    | resolve p v => simp [perform, resolve_def, Action.resolved?]
    | _ => rfl

private theorem size_resolved_run (hn : n.DepthFirst) : (run n).resolved.size = n.size := by
  have hnumbers := resolved_foldl (actions n) (start (n.size + 1))
  change (moment n (actions n)).resolved.toList.map Resolution.number = _ at hnumbers
  rw [moment_actions] at hnumbers
  calc (run n).resolved.size
      = ((backward n).resolved.toList.map Resolution.number).length := by simp [run, forward]
    _ = ((actions n).filterMap Action.resolved?).length := by rw [hnumbers]; rfl
    _ = n.size := by rw [(resolved_actions hn).length_eq, List.length_range']

/-- The resolutions are the only records of their level. -/
theorem filter_trace_build (f : Flow) (roots : List Block) :
    (Tree.build f roots).events.filter (·.level = .trace) =
      (run (f.numbering roots)).events (f.numbering roots) := by
  change (Preorder.startEvents f roots ++
    ((run (f.numbering roots)).events (f.numbering roots) ++ [_])).filter _ = _
  have hstart : (Preorder.startEvents f roots).filter (·.level = .trace) = [] := by
    simp [Preorder.startEvents, Event.level]
  have hsweep : ((run (f.numbering roots)).events (f.numbering roots)).filter (·.level = .trace) =
      (run (f.numbering roots)).events (f.numbering roots) := by
    simp [events, Event.level]
  rw [List.filter_append, List.filter_append, hstart, hsweep]
  simp [Event.level]

/-! ## The forward pass -/

/-- The forward pass changes no number that it does not come to. -/
theorem getD_foldl_settle {forest : Forest} {idom : Array Nat} {ws : List Nat} (hv : v ∉ ws) :
    (ws.foldl (settle forest) idom).getD v 0 = idom.getD v 0 := by
  induction ws generalizing idom with
  | nil => rfl
  | cons w ws ih =>
    rw [List.mem_cons, not_or] at hv
    rw [List.foldl_cons, ih hv.2, settle_of_ne (Ne.symm hv.1)]

/-- When the forward pass comes to a number, its candidate is as the backward pass left it. A candidate
other than the semidominator comes first, and its own entry is final. -/
theorem settled_candidate (hn : n.DepthFirst) {past next : List Nat}
    (h : List.range' 1 n.size = past ++ w :: next) :
    (past.foldl (settle (backward n).forest) (backward n).idom).getD w 0 = (backward n).idomOf w ∧
      ((backward n).idomOf w ≠ n.semi w → 0 < (backward n).idomOf w ∧ (backward n).idomOf w < w ∧
        (past.foldl (settle (backward n).forest) (backward n).idom).getD ((backward n).idomOf w) 0 =
          (run n).idomOf ((backward n).idomOf w)) := by
  obtain ⟨k, hk, rfl, hnext⟩ := List.range'_eq_append_iff.mp h
  obtain ⟨hw, hpos, hlater⟩ := List.range'_eq_cons_iff.mp hnext.symm
  constructor
  · apply getD_foldl_settle
    rw [List.mem_range'_1]
    omega
  · intro hne
    cases candidate_backward hn (w := w) (by omega) (by omega) with
    | semi he _ => exact absurd he hne
    | deferred hanc hlt hsd _ =>
      -- A number is no candidate for itself, so the candidate comes first.
      have hself : (backward n).idomOf w ≠ w := fun he => by
        rw [he] at hsd
        omega
      have hle := hn.le_of_ancestor hanc
      have hbefore : (backward n).idomOf w ∉ w :: next := by
        rw [hlater, List.mem_cons, List.mem_range'_1]
        omega
      refine ⟨by omega, by omega, ?_⟩
      have hrun : (run n).idom =
          (List.range' 1 n.size).foldl (settle (backward n).forest) (backward n).idom := rfl
      rw [idomOf.eq_def (run n), hrun, h, List.foldl_append, getD_foldl_settle hbefore]

/-! ## Both passes -/

/-- In both passes over an in-range flow, no number is lost in a bucket or resolved early. The backward
pass puts each number into one bucket, that of its semidominator, and resolves it once, when all of the
way from it up to its semidominator has been linked and the semidominator has not. It leaves no bucket,
and the construction writes one record of a resolution for each block of the tree. When the forward pass
comes to a number whose candidate is not its semidominator, the candidate has a smaller number and its
immediate dominator is final. -/
theorem buckets_exact (f : Flow) (hf : f.InRange) (roots : List Block) :
    let n := f.numbering roots
    let s := backward n
    moment n (actions n) = s ∧
    (actions n).filterMap Action.awaiting? = (countdown n.size).map (fun w => (n.semi w, w)) ∧
    ((actions n).filterMap Action.resolved?).Perm (List.range' 1 n.size) ∧
    (∀ done p v rest, actions n = done ++ .resolve p v :: rest →
      p = n.semi v ∧ n.Ancestor p v ∧ p ∉ linked done ∧ ∀ y, n.OnWay p v y → y ∈ linked done) ∧
    s.bucket = .empty ∧
    ((Tree.build f roots).events.filter (·.level = .trace)).length = (Tree.build f roots).value.size ∧
    ∀ past w next, List.range' 1 n.size = past ++ w :: next →
      let table := past.foldl (settle s.forest) s.idom
      let d := table.getD w 0
      s.forest.semiOf w = n.semi w ∧ d = s.idomOf w ∧
        (d ≠ s.forest.semiOf w →
          0 < d ∧ d < w ∧ table.getD d 0 = (run n).idomOf d ∧ n.IsIdom (table.getD d 0) d) := by
  intro n s
  have hn : n.DepthFirst := Numbering.depthFirst_numbering hf roots
  refine ⟨moment_actions n, awaiting_actions hn, resolved_actions hn,
    fun done p v rest h => linked_of_resolve hn h, bucket_backward hn, ?_, ?_⟩
  · rw [filter_trace_build, events, List.length_map, Array.length_toList]
    exact size_resolved_run hn
  · intro past w next h table d
    have hw : 1 ≤ w ∧ w < 1 + n.size := by
      rw [← List.mem_range'_1, h]
      simp
    have hsemi : s.forest.semiOf w = n.semi w := (swept_backward hn).done w hw.1 (by omega)
    obtain ⟨hd, hfinal⟩ := settled_candidate hn h
    change d = s.idomOf w at hd
    refine ⟨hsemi, hd, fun hne => ?_⟩
    rw [hd, hsemi] at hne
    obtain ⟨hpos, hlt, he⟩ := hfinal hne
    rw [hd]
    change table.getD (s.idomOf w) 0 = (run n).idomOf (s.idomOf w) at he
    refine ⟨hpos, hlt, he, ?_⟩
    rw [he]
    exact isIdom_run hn hpos (Nat.le_of_lt (Nat.lt_of_lt_of_le hlt (by omega)))

/-- A chain of four blocks with two edges that each leave one block out. -/
def skipping : Flow := .ofLists 4 #[[⟨2⟩, ⟨1⟩], [⟨3⟩, ⟨2⟩], [⟨3⟩], []]

/-- The third block is a root in the middle of the chain. It waits for the virtual entry until the whole
chain is linked, and the last block has it as candidate. -/
theorem buckets_skipping :
    let n := skipping.numbering [⟨2⟩, ⟨0⟩]
    let done := (actions n).take 26
    let table := [1, 2, 3].foldl (settle (backward n).forest) (backward n).idom
    skipping.InRange ∧ n.parentOf 3 = 2 ∧ actions n = done ++ [.resolve 0 3] ∧ n.semi 3 = 0 ∧
      0 ∉ linked done ∧ (∀ y, n.OnWay 0 3 y → y ∈ linked done) ∧ (backward n).bucket = .empty ∧
      ((Tree.build skipping [⟨2⟩, ⟨0⟩]).events.filter (·.level = .trace)).length = 4 ∧
      n.semi 4 = 2 ∧ table.getD 4 0 = 3 ∧ n.IsIdom (table.getD 3 0) 3 := by
  intro n done table
  have hf : skipping.InRange := Flow.inRange_ofLists (by decide)
  have hsplit : actions n = done ++ [.resolve 0 3] := by decide +kernel
  have hrange : List.range' 1 n.size = [1, 2, 3] ++ [4] := by decide +kernel
  have htable : table.getD 4 0 = 3 := by decide +kernel
  have hsize : (Tree.build skipping [⟨2⟩, ⟨0⟩]).value.size = 4 := by decide +kernel
  obtain ⟨_, _, _, htime, hempty, hrecords, hsettled⟩ := buckets_exact skipping hf [⟨2⟩, ⟨0⟩]
  obtain ⟨hsemi, _, hlinked, hway⟩ := htime done 0 3 [] hsplit
  obtain ⟨hsemi', _, hfinal⟩ := hsettled [1, 2, 3] 4 [] hrange
  have hfound : (backward n).forest.semiOf 4 = 2 := by decide +kernel
  have hne : table.getD 4 0 ≠ (backward n).forest.semiOf 4 := by
    rw [htable, hfound]
    decide
  obtain ⟨_, _, _, hidom⟩ := hfinal hne
  change n.IsIdom (table.getD (table.getD 4 0) 0) (table.getD 4 0) at hidom
  rw [htable] at hidom
  exact ⟨hf, by decide +kernel, hsplit, hsemi.symm, hlinked, hway, hempty, by rw [hrecords, hsize],
    by rw [← hsemi', hfound], htable, hidom⟩

end Sweep
end Dominance
