import Dominance.Sweep
import Dominance.Proofs.Dominator
import Dominance.Proofs.Forest

/-!
# What the two passes compute

The backward pass finds the semidominator of every number and a candidate for its immediate dominator.
A number waits in the bucket of its semidominator until the child of the semidominator on the way to
it is linked; by then all numbers that decide the candidate are linked as well. The forward pass turns
candidates into immediate dominators.
-/

namespace Dominance
namespace Numbering

/-- What the backward pass leaves for `v`: the semidominator, where that is the immediate dominator, or
else a number below the semidominator whose own semidominator is least. -/
inductive Candidate (n : Numbering) (d v : Nat) : Prop where
  | semi (he : d = n.semi v) (hle : ∀ y, n.Ancestor y v → n.semi v < y → n.semi v ≤ n.semi y)
  | deferred (hanc : n.Ancestor d v) (hlt : n.semi v < d) (hsd : n.semi d < n.semi v)
    (hle : ∀ y, n.Ancestor y v → n.semi v < y → n.semi d ≤ n.semi y)

/-- A predecessor `v` of `w` offers itself as semidominator, or, where it comes after `w`, the values
of `semi` at its ancestors after `w`. -/
def Offers (n : Numbering) (semi : Nat → Nat) (w v s : Nat) : Prop :=
  (v ≤ w ∧ s = v) ∨ ∃ u, n.Ancestor u v ∧ w < u ∧ s = semi u

end Numbering

namespace Sweep

variable {n : Numbering} {f : Forest} {s : Sweep} {k m p v w x : Nat}

/-! ### The semidominator of one number -/

/-- Asking a predecessor gives the least that it offers. -/
private theorem eval_offers (hn : n.DepthFirst) (h : f.Linked n (w + 1)) (hv : v ≤ n.size)
    (htodo : ∀ v, v < w + 1 → v ≤ n.size → f.semiOf v = v) :
    n.Offers f.semiOf w v (f.semiOf (f.eval v).1) ∧
      ∀ s, n.Offers f.semiOf w v s → f.semiOf (f.eval v).1 ≤ s := by
  rcases Nat.lt_or_ge v (w + 1) with hlt | hge
  · rw [h.eval_of_lt hlt, htodo v hlt hv]
    refine ⟨Or.inl ⟨by omega, rfl⟩, ?_⟩
    rintro s (⟨_, rfl⟩ | ⟨u, hu, hwu, rfl⟩)
    · exact Nat.le_refl s
    · have := hn.le_of_ancestor hu
      omega
  · obtain ⟨hanc, hk, hle⟩ := h.eval_least hn (by omega) hge hv
    refine ⟨Or.inr ⟨_, hanc, by omega, rfl⟩, ?_⟩
    rintro s (⟨hvw, _⟩ | ⟨u, hu, hwu, rfl⟩)
    · omega
    · exact hle u hu (by omega)

private theorem lower_def (f : Forest) (m v : Nat) :
    lower (f, m) v = ((f.eval v).2, min m (f.semiOf (f.eval v).1)) := by
  rw [← Forest.semiOf_eval f v (f.eval v).1]
  rfl

/-- Asking all predecessors keeps the forest and gives the least of what they offer. -/
private theorem foldl_lower (hn : n.DepthFirst) (vs : List Nat) (hvs : ∀ v ∈ vs, v ≤ n.size)
    (h : f.Linked n (w + 1)) (htodo : ∀ v, v < w + 1 → v ≤ n.size → f.semiOf v = v) :
    (vs.foldl lower (f, m)).1.Linked n (w + 1) ∧
      (∀ x, (vs.foldl lower (f, m)).1.semiOf x = f.semiOf x) ∧
      (vs.foldl lower (f, m)).2 ≤ m ∧
      (∀ v ∈ vs, ∀ s, n.Offers f.semiOf w v s → (vs.foldl lower (f, m)).2 ≤ s) ∧
      ((vs.foldl lower (f, m)).2 = m ∨
        ∃ v ∈ vs, n.Offers f.semiOf w v (vs.foldl lower (f, m)).2) := by
  induction vs generalizing f m with
  | nil => exact ⟨h, fun _ => rfl, Nat.le_refl m, List.forall_mem_nil _, Or.inl rfl⟩
  | cons v vs ih =>
    have hv := hvs v List.mem_cons_self
    have hsemi : (f.eval v).2.semiOf = f.semiOf := by
      funext x
      rw [Forest.semiOf_eval]
    obtain ⟨hoff, hleast⟩ := eval_offers hn h hv htodo
    rw [List.foldl_cons, lower_def]
    obtain ⟨hlink, hs, hle, hall, hfound⟩ := ih (m := min m (f.semiOf (f.eval v).1))
      (fun u hu => hvs u (List.mem_cons_of_mem v hu)) (h.eval hn (by omega) hv)
      (by rw [hsemi]; exact htodo)
    rw [hsemi] at hs hall hfound
    generalize vs.foldl lower ((f.eval v).2, min m (f.semiOf (f.eval v).1)) = r at *
    refine ⟨hlink, hs, by omega, ?_, ?_⟩
    · intro u hu s hus
      rcases List.mem_cons.mp hu with rfl | hu
      · have := hleast s hus
        omega
      · exact hall u hu s hus
    · rcases hfound with he | ⟨u, hu, hus⟩
      · rcases Nat.le_total m (f.semiOf (f.eval v).1) with hm | hm
        · rw [Nat.min_eq_left hm] at he
          exact Or.inl he
        · rw [Nat.min_eq_right hm] at he
          rw [he]
          exact Or.inr ⟨v, List.mem_cons_self, hoff⟩
      · exact Or.inr ⟨u, List.mem_cons_of_mem v hu, hus⟩

/-! ### The state between two numbers -/

/-- The numbers from `k` on have their semidominators and are linked; the others are untouched. -/
structure Progress (n : Numbering) (k : Nat) (s : Sweep) : Prop where
  linked : s.forest.Linked n k
  done : ∀ v, k ≤ v → v ≤ n.size → s.forest.semiOf v = n.semi v
  todo : ∀ v, v < k → v ≤ n.size → s.forest.semiOf v = v
  idom_size : s.idom.size = n.size + 1

/-- The state of the backward pass after the numbers from `k` on. A number has left its bucket exactly
if a child of its semidominator came by since it entered, and then it has a candidate. -/
structure Swept (n : Numbering) (k : Nat) (s : Sweep) : Prop extends Progress n k s where
  waiting : ∀ p v, s.bucket.contains p v = true ↔
    k ≤ v ∧ v ≤ n.size ∧ n.semi v = p ∧ ∀ y, k ≤ y → y ≤ v → n.parentOf y ≠ p
  candidate : ∀ v y, k ≤ y → y ≤ v → v ≤ n.size → n.parentOf y = n.semi v →
    n.Candidate (s.idomOf v) v

/-- Asking all predecessors of a number gives its semidominator. -/
theorem Progress.lower (hn : n.DepthFirst) (h : Progress n (w + 1) s) (pos : 0 < w)
    (hw : w ≤ n.size) :
    ((n.predsOf w).foldl lower (s.forest, s.forest.semiOf w)).1.Linked n (w + 1) ∧
      (∀ x, ((n.predsOf w).foldl lower (s.forest, s.forest.semiOf w)).1.semiOf x =
        s.forest.semiOf x) ∧
      ((n.predsOf w).foldl lower (s.forest, s.forest.semiOf w)).2 = n.semi w := by
  obtain ⟨hlink, hs, hle, hall, hfound⟩ := foldl_lower hn (n.predsOf w)
    (fun v hv => hn.source_le v w hv) h.linked h.todo (m := s.forest.semiOf w)
  refine ⟨hlink, hs, ?_⟩
  generalize (n.predsOf w).foldl Sweep.lower (s.forest, s.forest.semiOf w) = r at *
  have hp := hn.parent_lt w pos hw
  have hparent := hall _ (hn.parent_leads w pos hw) _ (Or.inl ⟨by omega, rfl⟩)
  have hsemi : ∀ v u, n.Leads v w → n.Ancestor u v → w < u → s.forest.semiOf u = n.semi u :=
    fun v u hv hu hwu => h.done u hwu (hn.ancestor_le_size hu (hn.source_le v w hv))
  symm
  apply hn.semi_eq_of_least pos hw
  · rcases hfound with he | ⟨v, hv, ⟨_, he⟩ | ⟨u, hu, hwu, he⟩⟩
    · rw [h.todo w (by omega) hw] at he
      omega
    · rw [he]
      exact Or.inl hv
    · rw [hsemi v u hv hu hwu] at he
      exact Or.inr ⟨v, u, hv, hu, hwu, he⟩
  · intro v hv hvw
    exact hall v hv v (Or.inl ⟨by omega, rfl⟩)
  · intro v u hv hu hwu
    rw [← hsemi v u hv hu hwu]
    exact hall v hv _ (Or.inr ⟨u, hu, hwu, rfl⟩)

/-! ### Resolving a bucket -/

/-- The answer for a number, asked when a child `w` of its semidominator is linked, decides between the
two kinds of candidates. -/
private theorem candidate_of_eval (hn : n.DepthFirst) (h : Progress n w s) (pos : 0 < w)
    (hwv : w ≤ v) (hv : v ≤ n.size) (hp : n.semi v = n.parentOf w) :
    n.Candidate (if s.forest.semiOf (s.forest.eval v).1 < s.forest.semiOf v
      then (s.forest.eval v).1 else n.parentOf w) v := by
  obtain ⟨hanc, hk, hle⟩ := h.linked.eval_least hn pos hwv hv
  have hlt := hn.parent_lt w pos (by omega)
  have hev := hn.ancestor_le_size hanc hv
  -- On the way up from `v`, what is linked is what lies below the semidominator.
  have hway : ∀ y, n.Ancestor y v → n.semi v < y → w ≤ y := by
    intro y hy hsy
    exact hn.le_of_parent_lt hy (by omega) hwv
  have hbest : ∀ y, n.Ancestor y v → n.semi v < y → n.semi (s.forest.eval v).1 ≤ n.semi y := by
    intro y hy hsy
    have hwy := hway y hy hsy
    have hys := hn.ancestor_le_size hy hv
    rw [← h.done _ hk hev, ← h.done y hwy hys]
    exact hle y hy hwy
  rw [h.done _ hk hev, h.done v hwv hv]
  split
  · next hsd => exact .deferred hanc (by omega) hsd hbest
  · next hsd =>
    refine .semi hp.symm ?_
    intro y hy hsy
    have := hbest y hy hsy
    omega

/-- Resolving a number asks once, leaves the buckets, and writes the candidate of that number. -/
theorem resolve_eq (p : Nat) (s : Sweep) (v : Nat) :
    (resolve p s v).forest = (s.forest.eval v).2 ∧ (resolve p s v).bucket = s.bucket ∧
      (resolve p s v).idom = s.idom.setIfInBounds v
        (if s.forest.semiOf (s.forest.eval v).1 < s.forest.semiOf v
          then (s.forest.eval v).1 else p) := by
  simp only [resolve_def, Forest.semiOf_eval]
  exact ⟨trivial, trivial, trivial⟩

private theorem Progress.resolve (hn : n.DepthFirst) (h : Progress n w s) (pos : 0 < w)
    (hv : v ≤ n.size) : Progress n w (resolve p s v) := by
  obtain ⟨hf, _, hi⟩ := resolve_eq p s v
  refine ⟨?_, ?_, ?_, ?_⟩
  · rw [hf]
    exact h.linked.eval hn pos hv
  · rw [hf]
    intro x hx hxs
    rw [Forest.semiOf_eval]
    exact h.done x hx hxs
  · rw [hf]
    intro x hx hxs
    rw [Forest.semiOf_eval]
    exact h.todo x hx hxs
  · rw [hi, Array.size_setIfInBounds]
    exact h.idom_size

private theorem idomOf_resolve (h : Progress n w s) (hv : v ≤ n.size) (x : Nat) :
    (Sweep.resolve p s v).idomOf x = if v = x then
      (if s.forest.semiOf (s.forest.eval v).1 < s.forest.semiOf v then (s.forest.eval v).1 else p)
      else s.idomOf x := by
  have hlt : v < s.idom.size := by
    rw [h.idom_size]
    omega
  rw [idomOf, (resolve_eq p s v).2.2, Forest.getD_setIfInBounds]
  simp only [hlt, and_true]
  rfl

/-- Resolving a list of numbers, all of the semidominator that is the parent of `w`, gives candidates
to these and leaves the others alone. -/
private theorem Progress.foldl_resolve (hn : n.DepthFirst) (pos : 0 < w) (vs : List Nat)
    (hvs : ∀ v ∈ vs, w ≤ v ∧ v ≤ n.size ∧ n.semi v = n.parentOf w) (h : Progress n w s) :
    Progress n w (vs.foldl (Sweep.resolve (n.parentOf w)) s) ∧
      (vs.foldl (Sweep.resolve (n.parentOf w)) s).bucket = s.bucket ∧
      (∀ v ∈ vs, n.Candidate ((vs.foldl (Sweep.resolve (n.parentOf w)) s).idomOf v) v) ∧
      (∀ v, v ∉ vs → (vs.foldl (Sweep.resolve (n.parentOf w)) s).idomOf v = s.idomOf v) := by
  induction vs generalizing s with
  | nil => exact ⟨h, rfl, List.forall_mem_nil _, fun _ _ => rfl⟩
  | cons v vs ih =>
    obtain ⟨hwv, hv, hp⟩ := hvs v List.mem_cons_self
    have hstep := idomOf_resolve (p := n.parentOf w) h hv
    obtain ⟨hprog, hbucket, hcand, hrest⟩ :=
      ih (fun u hu => hvs u (List.mem_cons_of_mem v hu)) (h.resolve (p := n.parentOf w) hn pos hv)
    rw [List.foldl_cons]
    refine ⟨hprog, ?_, ?_, ?_⟩
    · rw [hbucket, (resolve_eq _ s v).2.1]
    · intro u hu
      by_cases hmem : u ∈ vs
      · exact hcand u hmem
      · obtain rfl : u = v := (List.mem_cons.mp hu).resolve_right hmem
        rw [hrest u hmem, hstep, if_pos rfl]
        exact candidate_of_eval hn h pos hwv hv hp
    · intro u hu
      rw [List.mem_cons, not_or] at hu
      rw [hrest u hu.2, hstep, if_neg (Ne.symm hu.1)]

/-! ### The passes -/

private theorem progress_link (hn : n.DepthFirst) (h : Progress n (w + 1) s) (pos : 0 < w)
    (hw : w ≤ n.size) {g : Forest} (hg : g.Linked n (w + 1))
    (hs : ∀ x, g.semiOf x = s.forest.semiOf x) (bucket : Multimap Nat Nat) :
    Progress n w ⟨(g.setSemi w (n.semi w)).link (n.parentOf w) w, bucket, s.idom, s.resolved⟩ := by
  have hsize : w < g.semi.size := by
    rw [hg.semi_size]
    omega
  refine ⟨(hg.setSemi (Nat.lt_succ_self w) _).link hn pos hw, ?_, ?_, h.idom_size⟩
  · intro v hv hvs
    rw [Forest.semiOf_link, Forest.semiOf_setSemi]
    split
    · next he => rw [he.1]
    · next he =>
      rw [hs]
      exact h.done v (by omega) hvs
  · intro v hv hvs
    rw [Forest.semiOf_link, Forest.semiOf_setSemi, if_neg (by omega), hs]
    exact h.todo v (by omega) hvs

/-- What waits once the next number has been put into the bucket of its semidominator. -/
theorem Swept.contains_insert (h : Swept n (w + 1) s) (hw : w ≤ n.size) (q v : Nat) :
    (s.bucket.insert (n.semi w) w).contains q v = true ↔
      w ≤ v ∧ v ≤ n.size ∧ n.semi v = q ∧ ∀ y, w + 1 ≤ y → y ≤ v → n.parentOf y ≠ q := by
  rw [Multimap.contains_insert, h.waiting]
  constructor
  · rintro (⟨hv, hvs, he, hy⟩ | ⟨he, rfl⟩)
    · exact ⟨by omega, hvs, he, hy⟩
    · exact ⟨Nat.le_refl v, hw, he, fun y hy hyv => by omega⟩
  · rintro ⟨hv, hvs, he, hy⟩
    by_cases hwv : v = w
    · subst hwv
      exact Or.inr ⟨he, rfl⟩
    · exact Or.inl ⟨by omega, hvs, he, hy⟩

/-- A number that is not due when `w` is linked, although a child of its semidominator came by, was
resolved before. -/
private theorem Swept.candidate_of_not_due (h : Swept n (w + 1) s) (hw : w ≤ n.size) {y : Nat}
    (hdue : ¬(s.bucket.insert (n.semi w) w).contains (n.parentOf w) v = true) (hwy : w ≤ y)
    (hyv : y ≤ v) (hvs : v ≤ n.size) (hp : n.parentOf y = n.semi v) :
    n.Candidate (s.idomOf v) v := by
  rw [h.contains_insert hw] at hdue
  by_cases hpw : n.semi v = n.parentOf w
  · obtain ⟨y', hy', hyv', hp'⟩ : ∃ y', w + 1 ≤ y' ∧ y' ≤ v ∧ n.parentOf y' = n.parentOf w := by
      apply Classical.byContradiction
      intro hx
      exact hdue ⟨by omega, hvs, hpw, fun y hy hyv he => hx ⟨y, hy, hyv, he⟩⟩
    exact h.candidate v y' hy' hyv' hvs (by rw [hp', hpw])
  · have hyw : y ≠ w := fun he => hpw (by rw [← hp, he])
    exact h.candidate v y (by omega) hyv hvs hp

/-- One number of the backward pass. -/
theorem Swept.step (hn : n.DepthFirst) (h : Swept n (w + 1) s) (pos : 0 < w) (hw : w ≤ n.size) :
    Swept n w (step n s w) := by
  obtain ⟨hlink, hsemi, hleast⟩ := h.toProgress.lower hn pos hw
  rw [step_def]
  generalize (n.predsOf w).foldl Sweep.lower (s.forest, s.forest.semiOf w) = r at *
  simp only [hleast]
  have hdue : ∀ v ∈ (s.bucket.insert (n.semi w) w).values (n.parentOf w),
      w ≤ v ∧ v ≤ n.size ∧ n.semi v = n.parentOf w := by
    intro v hv
    obtain ⟨h1, h2, h3, _⟩ := (h.contains_insert hw _ v).mp (Multimap.mem_values.mp hv)
    exact ⟨h1, h2, h3⟩
  obtain ⟨hprog, hb, hcand, hrest⟩ := Progress.foldl_resolve hn pos _ hdue
    (progress_link hn h.toProgress pos hw hlink hsemi
      ((s.bucket.insert (n.semi w) w).erase (n.parentOf w)))
  refine ⟨hprog, ?_, ?_⟩
  · intro q v
    rw [hb, Multimap.contains_erase, h.contains_insert hw]
    constructor
    · rintro ⟨hne, hv, hvs, he, hy⟩
      refine ⟨hv, hvs, he, ?_⟩
      intro y hwy hyv
      by_cases hyw : y = w
      · rw [hyw]
        exact hne
      · exact hy y (by omega) hyv
    · rintro ⟨hv, hvs, he, hy⟩
      exact ⟨hy w (Nat.le_refl w) hv, hv, hvs, he, fun y hwy => hy y (by omega)⟩
  · intro v y hwy hyv hvs hp
    by_cases hmem : v ∈ (s.bucket.insert (n.semi w) w).values (n.parentOf w)
    · exact hcand v hmem
    · rw [hrest v hmem]
      exact h.candidate_of_not_due hw (fun hx => hmem (Multimap.mem_values.mpr hx)) hwy hyv hvs hp

/-- Nothing is done before the backward pass. -/
theorem swept_start (n : Numbering) : Swept n (n.size + 1) (start (n.size + 1)) := by
  refine ⟨⟨Forest.linked_isolated n, ?_, ?_, ?_⟩, ?_, ?_⟩
  · intro v hv hvs
    omega
  · intro v hv _
    exact Forest.semiOf_isolated hv
  · exact Array.size_replicate
  · intro p v
    constructor
    · intro hx
      change (Multimap.empty : Multimap Nat Nat).contains p v = true at hx
      rw [Multimap.contains_empty] at hx
      cases hx
    · rintro ⟨hv, hvs, _⟩
      omega
  · intro v y hy hyv hvs
    omega

/-- Counting down begins with the last number. -/
theorem countdown_succ (j : Nat) : countdown (j + 1) = (j + 1) :: countdown j := by
  unfold countdown
  rw [List.range'_concat, List.reverse_append, Nat.one_mul, Nat.add_comm 1 j]
  rfl

/-- The backward pass, from any number down. -/
theorem Swept.foldl_step (hn : n.DepthFirst) {j : Nat} (hj : j ≤ n.size) (h : Swept n (j + 1) s) :
    Swept n 1 ((countdown j).foldl (Sweep.step n) s) := by
  induction j generalizing s with
  | zero => exact h
  | succ j ih =>
    rw [countdown_succ, List.foldl_cons]
    exact ih (by omega) (h.step hn (by omega) hj)

/-- The backward pass leaves every number with its semidominator, and no number behind. -/
theorem swept_backward (hn : n.DepthFirst) : Swept n 1 (backward n) :=
  Swept.foldl_step hn (Nat.le_refl n.size) (swept_start n)

/-- The backward pass leaves every number with a candidate. -/
theorem candidate_backward (hn : n.DepthFirst) (pos : 0 < w) (hw : w ≤ n.size) :
    n.Candidate ((backward n).idomOf w) w := by
  have hne : n.semi w ≠ w := Nat.ne_of_lt (hn.semi_lt pos hw)
  obtain ⟨c, hc, _, hp, hcw⟩ := (hn.semi_ancestor pos hw).child hne
  exact (swept_backward hn).candidate w c hc (hn.le_of_ancestor hcw) hw hp

/-- One number of the forward pass: with the numbers before it settled, a candidate becomes the
immediate dominator. -/
private theorem isIdom_settle (hn : n.DepthFirst) {idom : Array Nat} (pos : 0 < w) (hw : w ≤ n.size)
    (hsemi : f.semiOf w = n.semi w) (hsize : idom.size = n.size + 1)
    (hbefore : ∀ v, 0 < v → v < w → n.IsIdom (idom.getD v 0) v)
    (hc : n.Candidate (idom.getD w 0) w) : n.IsIdom ((settle f idom w).getD w 0) w := by
  have hlt : w < idom.size := by
    rw [hsize]
    omega
  rw [settle_def]
  cases hc with
  | semi he hle =>
    rw [if_pos (by rw [he, hsemi]), he]
    exact hn.isIdom_semi pos hw hle
  | deferred hanc hsd hss hle =>
    rw [if_neg (by omega)]
    simp only [Forest.getD_setIfInBounds, hlt, and_self, if_true]
    have hdw : idom.getD w 0 ≠ w := fun he => by
      rw [he] at hss
      omega
    have hd := hn.le_of_ancestor hanc
    exact hn.isIdom_of_least pos hw hanc hsd hle (hbefore _ (by omega) (by omega))

/-- Settling a number changes no other. -/
theorem settle_of_ne {idom : Array Nat} (hne : w ≠ v) :
    (settle f idom w).getD v 0 = idom.getD v 0 := by
  rw [settle_def]
  split
  · rfl
  · rw [Forest.getD_setIfInBounds, if_neg (fun h => hne h.1)]

private theorem size_settle (f : Forest) (idom : Array Nat) (w : Nat) :
    (settle f idom w).size = idom.size := by
  rw [settle_def]
  split
  · rfl
  · exact Array.size_setIfInBounds

/-- The forward pass, up to any number: the numbers so far are settled, the others are as before. -/
theorem isIdom_foldl_settle (hn : n.DepthFirst) {idom : Array Nat}
    (hsemi : ∀ w, 0 < w → w ≤ n.size → f.semiOf w = n.semi w) (hsize : idom.size = n.size + 1)
    (hc : ∀ w, 0 < w → w ≤ n.size → n.Candidate (idom.getD w 0) w) {j : Nat} (hj : j ≤ n.size) :
    ((List.range' 1 j).foldl (settle f) idom).size = n.size + 1 ∧
      (∀ v, 0 < v → v ≤ j → n.IsIdom (((List.range' 1 j).foldl (settle f) idom).getD v 0) v) ∧
      (∀ v, j < v → ((List.range' 1 j).foldl (settle f) idom).getD v 0 = idom.getD v 0) := by
  induction j with
  | zero => exact ⟨hsize, fun v hv hv0 => by omega, fun _ _ => rfl⟩
  | succ j ih =>
    obtain ⟨hs, hbefore, hafter⟩ := ih (by omega)
    rw [List.range'_concat, List.foldl_append, Nat.one_mul, Nat.add_comm 1 j]
    generalize (List.range' 1 j).foldl (settle f) idom = table at hs hbefore hafter
    rw [List.foldl_cons, List.foldl_nil]
    refine ⟨by rw [size_settle, hs], ?_, ?_⟩
    · intro v hv hvj
      by_cases he : v = j + 1
      · subst he
        apply isIdom_settle hn hv hj (hsemi _ hv hj) hs
        · intro u hu huj
          exact hbefore u hu (by omega)
        · rw [hafter _ (by omega)]
          exact hc _ hv hj
      · rw [settle_of_ne (Ne.symm he)]
        exact hbefore v hv (by omega)
    · intro v hv
      rw [settle_of_ne (by omega)]
      exact hafter v (by omega)

/-- The passes find the semidominator of every number. -/
theorem semiOf_run (hn : n.DepthFirst) (pos : 0 < w) (hw : w ≤ n.size) :
    (run n).forest.semiOf w = n.semi w :=
  (swept_backward hn).done w pos hw

/-- The passes find the immediate dominator of every number. -/
theorem isIdom_run (hn : n.DepthFirst) (pos : 0 < w) (hw : w ≤ n.size) :
    n.IsIdom ((run n).idomOf w) w :=
  (isIdom_foldl_settle hn (swept_backward hn).done (swept_backward hn).idom_size
    (fun _ => candidate_backward hn) (Nat.le_refl n.size)).2.1 w pos hw

end Sweep
end Dominance
