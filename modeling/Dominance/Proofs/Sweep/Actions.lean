import Dominance.Proofs.Forest.Moves
import Dominance.Proofs.Sweep
import Dominance.Sweep.Action

/-!
# Actions of the backward pass are in order

The actions of the backward pass, made one after the other, lead to the state that the pass ends in.
They are in order: whatever comes next, the numbers from some `k` on are linked and no others, and the
action is one that is due then. So what is known of the forest holds at every moment, and the rest of the
pass is always a sequence of moves that the forest allows.
-/

namespace Dominance

/-- The number `v` is due when `w` is linked: its semidominator is the parent of `w`, and no child of that
parent has come by since `v` was put into its bucket. -/
def Numbering.Due (n : Numbering) (w v : Nat) : Prop :=
  w ≤ v ∧ v ≤ n.size ∧ n.semi v = n.parentOf w ∧
    ∀ y, w + 1 ≤ y → y ≤ v → n.parentOf y ≠ n.parentOf w

namespace Sweep

variable {n : Numbering} {f : Forest} {s : Sweep} {j k v w : Nat} {as bs : List Action}

/-! ## Actions and steps -/

private theorem foldl_ask (s : Sweep) (vs : List Nat) (m : Nat) :
    (vs.map Action.ask).foldl perform s = { s with forest := (vs.foldl lower (s.forest, m)).1 } := by
  induction vs generalizing s m with
  | nil => rfl
  | cons v vs ih => exact ih (perform s (.ask v)) _

/-- The actions at a number make the step. -/
theorem foldl_actionsAt (n : Numbering) (s : Sweep) (w : Nat) :
    (actionsAt n s w).foldl perform s = step n s w := by
  rw [actionsAt, List.foldl_append, foldl_ask s (n.predsOf w) (s.forest.semiOf w), step_def]
  simp only [List.foldl_cons, List.foldl_map]
  rfl

private theorem foldl_actionsFrom (n : Numbering) (s : Sweep) (ws : List Nat) :
    (actionsFrom n s ws).foldl perform s = ws.foldl (step n) s := by
  induction ws generalizing s with
  | nil => rfl
  | cons w ws ih => rw [actionsFrom, List.foldl_append, foldl_actionsAt, ih, List.foldl_cons]

/-- After all actions the backward pass is over. -/
theorem moment_actions (n : Numbering) : moment n (actions n) = backward n :=
  foldl_actionsFrom n _ _

/-! ## Order -/

/-- The actions are in order if the numbers from `k` on are linked before them, and those from `j` on
are linked after them. A number is put into the bucket of its semidominator before it is linked, and it is
resolved when the last linked number is a child of its semidominator. -/
inductive Orderly (n : Numbering) : Nat → List Action → Nat → Prop where
  | nil {k : Nat} : Orderly n k [] k
  | ask {k j v : Nat} {as : List Action} (hv : v ≤ n.size) (h : Orderly n k as j) :
    Orderly n k (.ask v :: as) j
  | setSemi {j w : Nat} {as : List Action} (h : Orderly n (w + 1) as j) :
    Orderly n (w + 1) (.setSemi w (n.semi w) :: as) j
  | await {j w : Nat} {as : List Action} (h : Orderly n (w + 1) as j) :
    Orderly n (w + 1) (.await (n.semi w) w :: as) j
  | link {j w : Nat} {as : List Action} (pos : 0 < w) (hw : w ≤ n.size) (h : Orderly n w as j) :
    Orderly n (w + 1) (.link (n.parentOf w) w :: as) j
  | release {k j p : Nat} {as : List Action} (h : Orderly n k as j) :
    Orderly n k (.release p :: as) j
  | resolve {k j v : Nat} {as : List Action} (hkv : k ≤ v) (hv : v ≤ n.size)
    (hp : n.parentOf k = n.semi v) (h : Orderly n k as j) : Orderly n k (.resolve (n.semi v) v :: as) j

namespace Orderly

/-- Actions in order, one part after the other. -/
theorem append {i : Nat} (h : Orderly n k as j) (h' : Orderly n j bs i) : Orderly n k (as ++ bs) i := by
  induction h with
  | nil => exact h'
  | ask hv _ ih => exact .ask hv (ih h')
  | setSemi _ ih => exact .setSemi (ih h')
  | await _ ih => exact .await (ih h')
  | link pos hw _ ih => exact .link pos hw (ih h')
  | release _ ih => exact .release (ih h')
  | resolve hkv hv hp _ ih => exact .resolve hkv hv hp (ih h')

/-- Between any two actions there is a moment at which the numbers from some `i` on are linked. -/
theorem split (h : Orderly n k (as ++ bs) j) : ∃ i, Orderly n k as i ∧ Orderly n i bs j := by
  induction as generalizing k with
  | nil => exact ⟨k, .nil, h⟩
  | cons a as ih =>
    cases h with
    | ask hv h =>
      obtain ⟨i, hi, hrest⟩ := ih h
      exact ⟨i, .ask hv hi, hrest⟩
    | setSemi h =>
      obtain ⟨i, hi, hrest⟩ := ih h
      exact ⟨i, .setSemi hi, hrest⟩
    | await h =>
      obtain ⟨i, hi, hrest⟩ := ih h
      exact ⟨i, .await hi, hrest⟩
    | link pos hw h =>
      obtain ⟨i, hi, hrest⟩ := ih h
      exact ⟨i, .link pos hw hi, hrest⟩
    | release h =>
      obtain ⟨i, hi, hrest⟩ := ih h
      exact ⟨i, .release hi, hrest⟩
    | resolve hkv hv hp h =>
      obtain ⟨i, hi, hrest⟩ := ih h
      exact ⟨i, .resolve hkv hv hp hi, hrest⟩

private theorem asks {vs : List Nat} (hvs : ∀ v ∈ vs, v ≤ n.size) (h : Orderly n k as j) :
    Orderly n k (vs.map .ask ++ as) j := by
  induction vs with
  | nil => exact h
  | cons v vs ih =>
    exact .ask (hvs v List.mem_cons_self) (ih fun u hu => hvs u (List.mem_cons_of_mem v hu))

private theorem resolves {vs : List Nat}
    (hvs : ∀ v ∈ vs, k ≤ v ∧ v ≤ n.size ∧ n.semi v = n.parentOf k) :
    Orderly n k (vs.map (.resolve (n.parentOf k))) k := by
  induction vs with
  | nil => exact .nil
  | cons v vs ih =>
    obtain ⟨hkv, hv, hp⟩ := hvs v List.mem_cons_self
    rw [List.map_cons, ← hp]
    refine .resolve hkv hv hp.symm ?_
    rw [hp]
    exact ih fun u hu => hvs u (List.mem_cons_of_mem v hu)

/-- The numbers linked by actions in order are consecutive. -/
theorem mem_linked (h : Orderly n k as j) : j ≤ k ∧ ∀ w, w ∈ linked as ↔ j ≤ w ∧ w < k := by
  induction h with
  | nil =>
    refine ⟨Nat.le_refl _, fun w => ⟨fun hw => absurd hw List.not_mem_nil, fun hw => ?_⟩⟩
    omega
  | link pos hw _ ih =>
    refine ⟨by omega, fun v => ?_⟩
    have hcons : ∀ p w (as : List Action), linked (.link p w :: as) = w :: linked as := fun _ _ _ => rfl
    rw [hcons, List.mem_cons, ih.2]
    omega
  | ask _ _ ih => exact ih
  | setSemi _ ih => exact ih
  | await _ ih => exact ih
  | release _ ih => exact ih
  | resolve _ _ _ _ ih => exact ih

/-- Actions in order keep what the forest knows. -/
theorem forest_linked (hn : n.DepthFirst) (h : Orderly n k as j) (pos : 0 < k)
    (hs : s.forest.Linked n k) : 0 < j ∧ (as.foldl perform s).forest.Linked n j := by
  induction h generalizing s with
  | nil => exact ⟨pos, hs⟩
  | ask hv _ ih => exact ih pos (hs.eval hn pos hv)
  | setSemi _ ih => exact ih pos (hs.setSemi (Nat.lt_succ_self _) _)
  | await _ ih => exact ih pos hs
  | link pos' hw _ ih => exact ih pos' (hs.link hn pos' hw)
  | release _ ih => exact ih pos hs
  | resolve _ hv _ _ ih => exact ih pos (hs.eval hn pos hv)

/-- The forest allows what actions in order do to it. -/
theorem allowsAll (hn : n.DepthFirst) (h : Orderly n k as j) (pos : 0 < k) (hf : f.Linked n k) :
    f.AllowsAll (as.flatMap Action.moves) := by
  induction h generalizing f with
  | nil => trivial
  | ask hv _ ih => exact ⟨trivial, ih pos (hf.eval hn pos hv)⟩
  | @setSemi _ w _ _ ih =>
    have hlt := Nat.lt_succ_self w
    exact ⟨hf.root w hlt, ih pos (hf.setSemi hlt _)⟩
  | await _ ih => exact ih pos hf
  | @link _ w _ pos' hw _ ih =>
    have hp := hn.parent_lt w pos' hw
    have hroot := hf.root w (Nat.lt_succ_self w)
    have hpass : ¬f.Passes w (n.parentOf w) := by
      -- The parent comes before the number, so it is not linked either.
      intro hx
      have hparent := hf.root (n.parentOf w) (by omega)
      rcases (Forest.passes_iff hroot).mp hx with he | ⟨_, hm⟩
      · omega
      · exact hm.linked hparent
    refine ⟨⟨?_, hroot, hpass⟩, ih pos' (hf.link hn pos' hw)⟩
    rw [hf.ancestor_size]
    omega
  | release _ ih => exact ih pos hf
  | resolve _ hv _ _ ih => exact ⟨trivial, ih pos (hf.eval hn pos hv)⟩

end Orderly

/-! ## The pass -/

/-- The bucket that is taken out when a number is linked holds what is due. -/
theorem Swept.mem_due (h : Swept n (w + 1) s) (hw : w ≤ n.size) :
    v ∈ (s.bucket.insert (n.semi w) w).values (n.parentOf w) ↔ n.Due w v := by
  rw [Multimap.mem_values, h.contains_insert hw]
  rfl

/-- The semidominator found at a number is written into its actions. -/
theorem Swept.actionsAt_eq (hn : n.DepthFirst) (h : Swept n (w + 1) s) (pos : 0 < w) (hw : w ≤ n.size) :
    actionsAt n s w = (n.predsOf w).map .ask ++
      (.setSemi w (n.semi w) :: .await (n.semi w) w :: .link (n.parentOf w) w ::
        .release (n.parentOf w) ::
        ((s.bucket.insert (n.semi w) w).values (n.parentOf w)).map (.resolve (n.parentOf w))) := by
  rw [actionsAt]
  simp only [(h.toProgress.lower hn pos hw).2.2]

/-- The actions at one number are in order. -/
theorem Swept.orderly (hn : n.DepthFirst) (h : Swept n (w + 1) s) (pos : 0 < w) (hw : w ≤ n.size) :
    Orderly n (w + 1) (actionsAt n s w) w := by
  rw [h.actionsAt_eq hn pos hw]
  refine .asks (fun v hv => hn.source_le v w hv)
    (.setSemi (.await (.link pos hw (.release (.resolves fun v hv => ?_)))))
  obtain ⟨hwv, hv, hp, _⟩ := (h.mem_due hw).mp hv
  exact ⟨hwv, hv, hp⟩

/-- From any number down, the actions are in order. -/
theorem Swept.orderly_from (hn : n.DepthFirst) (hj : j ≤ n.size) (h : Swept n (j + 1) s) :
    Orderly n (j + 1) (actionsFrom n s (countdown j)) 1 := by
  induction j generalizing s with
  | zero => exact .nil
  | succ j ih =>
    rw [countdown_succ, actionsFrom]
    exact (h.orderly hn (by omega) hj).append (ih (by omega) (h.step hn (by omega) hj))

/-- The actions of the backward pass are in order. -/
theorem orderly_actions (hn : n.DepthFirst) : Orderly n (n.size + 1) (actions n) 1 :=
  Swept.orderly_from hn (Nat.le_refl _) (swept_start n)

end Sweep
end Dominance
