import Dominance.Proofs.Correspondence

/-!
# Disjoint walks

A block that is no root and that no other block dominates is reached by two walks that have nothing
but the block in common, and they begin at different roots. The second walk is found by induction on
the length of the first: the block before the last one has a topmost dominator, which is reached by
two disjoint walks or is a root itself, and some walk to the block does without that dominator.
-/

namespace Dominance
namespace Flow

/-- Two roots of the graph lead to the block along walks that have no other block in common. -/
def Meets (f : Flow) (roots : List Block) (b : Block) : Prop :=
  ∃ r₁ ∈ f.validRoots roots, ∃ r₂ ∈ f.validRoots roots, r₁ ≠ r₂ ∧
    ∃ p q, f.Walk r₁ p b ∧ f.Walk r₂ q b ∧ ∀ x, x ∈ p → x ∈ q → x = b

variable {f : Flow} {roots : List Block} {a b d r u x : Block} {p q s : List Block}

/-- A walk can be cut at the first of its blocks that satisfy a condition. -/
theorem Walk.split_first {P : Block → Prop} (w : f.Walk a p b) (h : ∃ c ∈ p, P c) :
    ∃ c q r, P c ∧ f.Walk a (q ++ [c]) c ∧ f.Walk c r b ∧ p = q ++ r ∧ ∀ x ∈ q, ¬P x := by
  induction w with
  | single b =>
    obtain ⟨c, hc, hP⟩ := h
    cases List.mem_singleton.mp hc
    exact ⟨b, [], [b], hP, .single b, .single b, rfl, by simp⟩
  | @step a e b p he w ih =>
    by_cases ha : P a
    · exact ⟨a, [], a :: p, ha, .single a, .step he w, rfl, by simp⟩
    · obtain ⟨c, hc, hP⟩ := h
      have hcp : c ∈ p := by
        rcases List.mem_cons.mp hc with rfl | hc
        · exact absurd hP ha
        · exact hc
      obtain ⟨c, q, r, hP, wq, wr, rfl, hq⟩ := ih ⟨c, hcp, hP⟩
      exact ⟨c, a :: q, r, hP, .step he wq, wr, rfl, by simpa using ⟨ha, hq⟩⟩

/-- A walk can be ended where it first arrives at its end. -/
theorem Walk.first_arrival (w : f.Walk a p b) : ∃ q, f.Walk a (q ++ [b]) b ∧ q ⊆ p ∧ b ∉ q := by
  obtain ⟨c, q, r, hc, wq, _, rfl, hq⟩ := w.split_first (P := (b = ·)) ⟨b, w.last_mem, rfl⟩
  subst hc
  exact ⟨q, wq, List.subset_append_left q r, fun h => hq b h rfl⟩

/-- A walk can be cut at the last of its blocks that satisfy a condition. -/
theorem Walk.split_last {P : Block → Prop} (w : f.Walk a p b) (h : ∃ c ∈ p, P c) :
    ∃ c q r, P c ∧ f.Walk a q c ∧ f.Walk c (c :: r) b ∧ p = q ++ r ∧ ∀ x ∈ r, ¬P x := by
  induction w with
  | single b =>
    obtain ⟨c, hc, hP⟩ := h
    cases List.mem_singleton.mp hc
    exact ⟨b, [b], [], hP, .single b, .single b, rfl, by simp⟩
  | @step a e b p he w ih =>
    by_cases hp : ∃ c ∈ p, P c
    · obtain ⟨c, q, r, hP, wq, wr, rfl, hr⟩ := ih hp
      exact ⟨c, a :: q, r, hP, .step he wq, wr, rfl, hr⟩
    · obtain ⟨c, hc, hP⟩ := h
      have hca : c = a := by
        rcases List.mem_cons.mp hc with hc | hc
        · exact hc
        · exact absurd ⟨c, hc, hP⟩ hp
      subst hca
      exact ⟨c, [c], p, hP, .single c, .step he w, rfl, fun x hx hP => hp ⟨x, hx, hP⟩⟩

/-- A walk that does not begin at its end comes from a predecessor of it, the first time. -/
theorem Walk.exists_pred (w : f.Walk a p b) (h : a ≠ b) :
    ∃ u q, f.Walk a q u ∧ b ∈ f.successors u ∧ b ∉ q ∧ q.length < p.length := by
  induction w with
  | single => exact absurd rfl h
  | @step a c b p hc w ih =>
    by_cases hcb : c = b
    · subst hcb
      have hpos := List.length_pos_of_mem w.last_mem
      exact ⟨a, [a], .single a, hc, by simpa using h.symm, by simpa using hpos⟩
    · obtain ⟨u, q, wq, hu, hb, hlt⟩ := ih hcb
      exact ⟨u, a :: q, .step hc wq, hu, by simpa using ⟨h.symm, hb⟩, by simpa using hlt⟩

/-- No block of a walk is dominated by a block that the walk does without. -/
theorem not_dominates_of_mem (hr : r ∈ f.validRoots roots) (w : f.Walk r p b) (hd : d ∉ p)
    (hx : x ∈ p) : ¬f.Dominates roots d x := by
  intro hdx
  obtain ⟨q, s, wq, _, rfl⟩ := w.split hx
  exact hd (List.mem_append_left _ (hdx r hr q wq))

/-- A block that is dominated is reached from its dominator by way of dominated blocks. -/
theorem Dominates.exists_walk (h : f.Dominates roots d u) (hu : f.Reaches roots u) :
    ∃ s, f.Walk d s u ∧ ∀ x ∈ s, f.Dominates roots d x := by
  obtain ⟨r, hr, p, w⟩ := hu
  obtain ⟨c, q, s, rfl, _, ws, _, hs⟩ := w.split_last ⟨d, h r hr p w, rfl⟩
  refine ⟨d :: s, ws, ?_⟩
  intro x hx r' hr' p' w'
  -- A walk to `x` past the dominator could go on to `u` past the dominator.
  obtain ⟨q', s', wq', ws', he⟩ := ws.split hx
  have hq' : ∃ q'', q' = d :: q'' := by
    cases wq' <;> exact ⟨_, rfl⟩
  obtain ⟨q'', rfl⟩ := hq'
  have htail : d ∉ s'.tail := by
    rw [List.cons_append, List.cons.injEq] at he
    intro hd
    exact hs d (he.2 ▸ List.mem_append_right _ hd) rfl
  have hmem := h r' hr' _ (w'.append ws')
  rw [List.mem_append] at hmem
  exact hmem.resolve_right htail

/-- Every block that is reached has a dominator without dominators of its own, and a walk to the block
holds a walk to it. -/
theorem Walk.exists_top (hr : r ∈ f.validRoots roots) (w : f.Walk r p u) :
    ∃ d q, f.Dominates roots d u ∧ d ∈ p ∧ f.Walk r q d ∧ q.length ≤ p.length ∧
      ∀ a, f.Dominates roots a d → a = d := by
  obtain ⟨d, q, s, hd, wq, ws, rfl, hq⟩ :=
    w.split_first (P := (f.Dominates roots · u)) ⟨u, w.last_mem, f.dominates_self roots u⟩
  have hpos : 1 ≤ s.length := List.length_pos_of_mem ws.head_mem
  have hle : (q ++ [d]).length ≤ (q ++ s).length := by
    rw [List.length_append, List.length_append]
    exact Nat.add_le_add_left hpos q.length
  refine ⟨d, q ++ [d], hd, List.mem_append_right _ ws.head_mem, wq, hle, ?_⟩
  intro a ha
  have hmem := ha r hr _ wq
  rw [List.mem_append, List.mem_singleton] at hmem
  exact hmem.resolve_left fun haq => hq a haq (ha.trans hd)

/-- No other block dominates one at which disjoint walks meet. -/
theorem Meets.eq_of_dominates (h : f.Meets roots b) (ha : f.Dominates roots a b) : a = b := by
  obtain ⟨r₁, hr₁, r₂, hr₂, _, p, q, wp, wq, hpq⟩ := h
  exact hpq a (ha r₁ hr₁ p wp) (ha r₂ hr₂ q wq)

/-- A walk that ends where it first arrives holds a walk to each of the blocks before. -/
theorem Walk.exists_before (w : f.Walk a (q ++ [b]) b) (hx : x ∈ q) :
    ∃ v, f.Walk a v x ∧ v ⊆ q := by
  obtain ⟨c, v, t, rfl, wv, _, he, hv⟩ :=
    w.split_first (P := (· = x)) ⟨x, List.mem_append_left _ hx, rfl⟩
  rcases List.append_eq_append_iff.mp he with ⟨v', rfl, _⟩ | ⟨v', rfl, _⟩
  · exact absurd rfl (hv c (List.mem_append_left _ hx))
  · refine ⟨v ++ [c], wv, ?_⟩
    intro y hy
    rcases List.mem_append.mp hy with hy | hy
    · exact List.mem_append_left _ hy
    · rw [List.mem_singleton.mp hy]
      exact hx

section

variable {r₁ r₂ : Block} {q₁ q₂ t : List Block}

/-- A walk towards `d` that is left before `d`, for a walk that does without `d`. -/
private theorem Walk.exists_turn (w : f.Walk r₁ (q₁ ++ [d]) d) (hx : x ∈ q₁)
    (wt : f.Walk x (x :: t) b) (hd : d ∉ q₁) (hdt : d ∉ t) (hq : ∀ y ∈ q₁, y ∉ q₂)
    (ht : ∀ y ∈ t, y ∉ q₂) : ∃ u, f.Walk r₁ u b ∧ d ∉ u ∧ ∀ y ∈ u, y ∉ q₂ := by
  obtain ⟨v, wv, hv⟩ := w.exists_before hx
  refine ⟨v ++ t, wv.append wt, ?_, ?_⟩
  · rw [List.mem_append, not_or]
    exact ⟨fun h => hd (hv h), hdt⟩
  · intro y hy
    rcases List.mem_append.mp hy with hy | hy
    · exact hq y (hv hy)
    · exact ht y hy

/-- Of two disjoint walks to `d`, one can be kept clear of some walk to `b` that does without `d`. -/
private theorem exists_bypass (hr₁ : r₁ ∈ f.validRoots roots) (w₁ : f.Walk r₁ (q₁ ++ [d]) d)
    (hr₂ : r₂ ∈ f.validRoots roots) (w₂ : f.Walk r₂ (q₂ ++ [d]) d) (hd₁ : d ∉ q₁) (hd₂ : d ∉ q₂)
    (hdisj : ∀ y ∈ q₁, y ∉ q₂) (hr : r ∈ f.validRoots roots) (w : f.Walk r p b) (hd : d ∉ p) :
    ∃ r' ∈ f.validRoots roots, ∃ u, f.Walk r' u b ∧ d ∉ u ∧
      ((∀ y ∈ u, y ∉ q₁) ∨ (∀ y ∈ u, y ∉ q₂)) := by
  by_cases h : ∃ c ∈ p, c ∈ q₁ ∨ c ∈ q₂
  · -- From the last block that the walk shares with the two, the one it is on leads up to there.
    obtain ⟨c, v, t, hc, _, wt, rfl, ht⟩ := w.split_last h
    have hdt : d ∉ t := fun hdt => hd (List.mem_append_right _ hdt)
    rcases hc with hc | hc
    · obtain ⟨u, wu, hdu, hu⟩ := w₁.exists_turn hc wt hd₁ hdt hdisj
        fun y hy hq => ht y hy (Or.inr hq)
      exact ⟨r₁, hr₁, u, wu, hdu, Or.inr hu⟩
    · obtain ⟨u, wu, hdu, hu⟩ := w₂.exists_turn hc wt hd₂ hdt (fun y hy hq => hdisj y hq hy)
        fun y hy hq => ht y hy (Or.inl hq)
      exact ⟨r₂, hr₂, u, wu, hdu, Or.inl hu⟩
  · exact ⟨r, hr, p, w, hd, Or.inl fun y hy hq => h ⟨y, hy, Or.inl hq⟩⟩

/-- A walk to `d` that goes on among blocks dominated by `d` meets a walk that does without `d`. -/
private theorem meets_of_bypass (hr₁ : r₁ ∈ f.validRoots roots) (w₁ : f.Walk r₁ p b) (hd : d ∉ p)
    (hr₂ : r₂ ∈ f.validRoots roots) (w₂ : f.Walk r₂ (q ++ [d]) d) (hq : ∀ y ∈ p, y ∉ q)
    (ws : f.Walk d s u) (hs : ∀ y ∈ s, f.Dominates roots d y) (hub : b ∈ f.successors u)
    (hb : b ∉ f.validRoots roots) : f.Meets roots b := by
  have w := w₂.append (ws.concat hub)
  have hcommon : ∀ y, y ∈ p → y ∈ q ++ [d] ++ (s ++ [b]).tail → y = b := by
    intro y hy hy'
    simp only [List.mem_append, List.mem_singleton] at hy'
    rcases hy' with (hy' | rfl) | hy'
    · exact absurd hy' (hq y hy)
    · exact absurd hy hd
    · rcases List.mem_append.mp (List.mem_of_mem_tail hy') with hy' | hy'
      · exact absurd (hs y hy') (not_dominates_of_mem hr₁ w₁ hd hy)
      · exact List.mem_singleton.mp hy'
  refine ⟨r₁, hr₁, r₂, hr₂, ?_, p, _, w₁, w, hcommon⟩
  rintro rfl
  exact hb (hcommon r₁ w₁.head_mem w.head_mem ▸ hr₁)

end

/-- A block without dominators that is no root is met by disjoint walks. -/
theorem Walk.meets (hr : r ∈ f.validRoots roots) (w : f.Walk r p b) (hb : b ∉ f.validRoots roots)
    (alone : ∀ a, f.Dominates roots a b → a = b) : f.Meets roots b := by
  induction hn : p.length using Nat.strongRecOn generalizing r p b with
  | ind n ih =>
    subst hn
    have hrb : r ≠ b := fun h => hb (h ▸ hr)
    obtain ⟨u, v, wv, hub, hbv, hlt⟩ := w.exists_pred hrb
    obtain ⟨d, v', hdu, hdv, wv', hle, htop⟩ := wv.exists_top hr
    obtain ⟨s, ws, hs⟩ := hdu.exists_walk ⟨r, hr, v, wv⟩
    obtain ⟨r₃, hr₃, p₃, w₃, hd₃⟩ : ∃ r₃ ∈ f.validRoots roots, ∃ p₃, f.Walk r₃ p₃ b ∧ d ∉ p₃ := by
      apply Classical.byContradiction
      intro hno
      have hdb : f.Dominates roots d b := fun r₃ hr₃ p₃ w₃ =>
        Classical.byContradiction fun hd₃ => hno ⟨r₃, hr₃, p₃, w₃, hd₃⟩
      rw [alone d hdb] at hdv
      exact hbv hdv
    by_cases hroot : d ∈ f.validRoots roots
    · have w₂ : f.Walk d ([] ++ [d]) d := .single d
      exact meets_of_bypass hr₃ w₃ hd₃ hroot w₂ (by simp) ws hs hub hb
    · obtain ⟨r₁, hr₁, r₂, hr₂, _, p₁, p₂, w₁, w₂, hcommon⟩ :=
        ih v'.length (by omega) hr wv' hroot htop rfl
      -- Both walks are taken up to where they first arrive at the dominator.
      obtain ⟨q₁, w₁', hq₁, hd₁⟩ := w₁.first_arrival
      obtain ⟨q₂, w₂', hq₂, hd₂⟩ := w₂.first_arrival
      have hdisj : ∀ y ∈ q₁, y ∉ q₂ := by
        intro y hy hy'
        rw [hcommon y (hq₁ hy) (hq₂ hy')] at hy
        exact hd₁ hy
      obtain ⟨r', hr', p', w', hd', hq | hq⟩ :=
        exists_bypass hr₁ w₁' hr₂ w₂' hd₁ hd₂ hdisj hr₃ w₃ hd₃
      · exact meets_of_bypass hr' w' hd' hr₁ w₁' hq ws hs hub hb
      · exact meets_of_bypass hr' w' hd' hr₂ w₂' hq ws hs hub hb

end Flow
end Dominance
