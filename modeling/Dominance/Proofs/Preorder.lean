import Mathlib.Data.List.Induction
import Mathlib.Data.List.TakeWhile
import Dominance.Preorder
import Dominance.Flow.Path

/-!
# The order of a depth-first traversal

Every entry of the stack was pushed by a block visited before, or by the virtual entry; the numbers of
the pushers descend along the stack. A visited block therefore was found by a number no smaller than
any that still has an unvisited block to lead to. The traversal of an in-range flow visits exactly the
reachable blocks, each once.
-/

namespace Dominance
namespace Flow

/-- Number `t` of an order leads to the block; number zero is the virtual entry, which leads to the
roots, and number `i + 1` is the block at position `i`. -/
def Finds (f : Flow) (roots order : List Block) : Nat → Block → Prop
  | 0, b => b ∈ f.validRoots roots
  | i + 1, b => ∃ u, order[i]? = some u ∧ b ∈ f.successors u

/-- Every block of the order was found by a number before it, and by one that is no smaller than any
other number before it that leads to a block which has not come yet. -/
def Nested (f : Flow) (roots order : List Block) : Prop :=
  ∀ i b, order[i]? = some b → ∃ t ≤ i, f.Finds roots order t b ∧
    ∀ u c, u ≤ i → f.Finds roots order u c → c ∉ order.take (i + 1) → u ≤ t

variable {f : Flow} {roots order more seen : List Block} {b c : Block} {t : Nat}

/-- A block is found while the order is being made. -/
theorem Finds.le_length (h : f.Finds roots order t b) : t ≤ order.length := by
  cases t with
  | zero => exact Nat.zero_le _
  | succ i =>
    obtain ⟨u, hu, _⟩ := h
    obtain ⟨hi, _⟩ := List.getElem?_eq_some_iff.mp hu
    exact hi

/-- What a number leads to does not depend on what comes later. -/
theorem finds_append (h : t ≤ order.length) :
    f.Finds roots (order ++ more) t b ↔ f.Finds roots order t b := by
  cases t with
  | zero => exact Iff.rfl
  | succ i =>
    simp only [Finds]
    rw [List.getElem?_append_left (by omega)]

/-- A block that is no worse than all open ones extends a nested order. -/
theorem Nested.concat (h : f.Nested roots seen) (ht : f.Finds roots seen t b)
    (hopen : ∀ u c, f.Finds roots seen u c → c ∉ seen → c ≠ b → u ≤ t) :
    f.Nested roots (seen ++ [b]) := by
  have hts := ht.le_length
  intro i x hx
  rcases Nat.lt_or_ge i seen.length with hlt | hge
  · rw [List.getElem?_append_left hlt] at hx
    obtain ⟨s, hs, hsx, hbest⟩ := h i x hx
    refine ⟨s, hs, (finds_append (by omega)).mpr hsx, ?_⟩
    intro u c hu huc hc
    rw [List.take_append_of_le_length (by omega)] at hc
    exact hbest u c hu ((finds_append (by omega)).mp huc) hc
  · obtain ⟨hi, he⟩ := List.getElem?_eq_some_iff.mp hx
    rw [List.length_append, List.length_singleton] at hi
    obtain rfl : i = seen.length := by omega
    rw [List.getElem_append_right (Nat.le_refl _), List.getElem_singleton] at he
    subst he
    refine ⟨t, hts, (finds_append hts).mpr ht, ?_⟩
    intro u c hu huc hc
    rw [List.take_of_length_le (by simp), List.mem_append, List.mem_singleton, not_or] at hc
    exact hopen u c ((finds_append hu).mp huc) hc.1 hc.2

end Flow

namespace Preorder

variable {f : Flow} {roots seen : List Block} {p : Preorder} {b : Block} {below : List Block}

/-- The blocks that are pushed when given successors are offered: those not visited yet, each once, the
last one first. -/
def pushes (visited : BlockSet) (cs : List Block) : List Block :=
  cs.eraseDups.reverse.filter (!visited.contains ·)

/-- What is pushed is what is offered and has not been visited. -/
theorem mem_pushes {visited : BlockSet} {cs : List Block} {c : Block} :
    c ∈ pushes visited cs ↔ c ∈ cs ∧ visited.contains c = false := by
  simp [pushes]

/-- A block that comes last is kept only if it has not come before. -/
theorem eraseDups_concat (cs : List Block) (c : Block) :
    (cs ++ [c]).eraseDups = if c ∈ cs then cs.eraseDups else cs.eraseDups ++ [c] := by
  rw [List.eraseDups_append]
  by_cases hc : c ∈ cs <;> simp [List.removeAll, List.eraseDups_cons, hc]

/-- Removing repetitions leaves every block once. -/
theorem nodup_eraseDups (cs : List Block) : cs.eraseDups.Nodup := by
  induction cs using List.reverseRecOn with
  | nil => simp
  | append_singleton cs c ih =>
    rw [eraseDups_concat]
    split
    · exact ih
    · next hc =>
      have hne : ∀ d ∈ cs, d ≠ c := fun d hd he => hc (he ▸ hd)
      simpa [List.nodup_append, ih] using hne

/-- A list without repetitions stays as it is. -/
theorem eraseDups_of_nodup {cs : List Block} (h : cs.Nodup) : cs.eraseDups = cs := by
  induction cs using List.reverseRecOn with
  | nil => rfl
  | append_singleton cs c ih =>
    have hc : c ∉ cs := by
      intro hmem
      exact (List.nodup_append.mp h).2.2 c hmem c List.mem_cons_self rfl
    rw [eraseDups_concat, if_neg hc, ih (List.nodup_append.mp h).1]

/-- What offering blocks `cs` as successors of `b` makes of `p`, if no edge of `b` was taken before. -/
structure Offered (b : Block) (cs : List Block) (p q : Preorder) : Prop where
  stack : q.stack = pushes p.visited cs ++ p.stack
  visited : q.visited = p.visited
  taken : ∀ e, q.taken.contains e = true ↔ p.taken.contains e = true ∨
    (e.source = b ∧ e.target ∈ cs ∧ p.visited.contains e.target = false)

/-- Offering one more block. It is pushed if it is neither visited nor among those offered before. -/
private theorem Offered.offer {cs : List Block} {c : Block} {q : Preorder} (h : Offered b cs p q)
    (hb : ∀ c, p.taken.contains ⟨b, c⟩ = false) : Offered b (cs ++ [c]) p (offer b q c) := by
  have htaken : q.taken.contains ⟨b, c⟩ = true ↔ c ∈ cs ∧ p.visited.contains c = false := by
    rw [h.taken, hb c]
    simp
  unfold Preorder.offer
  rw [h.visited]
  by_cases hv : p.visited.contains c = true
  · rw [hv, Bool.true_or, if_pos rfl]
    refine ⟨?_, h.visited, fun e => ?_⟩
    · rw [h.stack, pushes, pushes, eraseDups_concat]
      split <;> simp [hv]
    · rw [h.taken e]
      grind
  · by_cases hc : c ∈ cs
    · have ht : q.taken.contains ⟨b, c⟩ = true := htaken.mpr ⟨hc, by simpa using hv⟩
      rw [ht, Bool.or_true, if_pos rfl]
      refine ⟨?_, h.visited, fun e => ?_⟩
      · rw [h.stack, pushes, pushes, eraseDups_concat, if_pos hc]
      · rw [h.taken e]
        grind
    · have ht : ¬q.taken.contains ⟨b, c⟩ = true := fun ht => hc (htaken.mp ht).1
      rw [if_neg (by simp [hv, ht])]
      refine ⟨?_, rfl, fun e => ?_⟩
      · simp [h.stack, pushes, eraseDups_concat, hc, hv]
      · rw [Std.ExtTreeSet.contains_insert, Bool.or_eq_true, beq_iff_eq,
          Std.LawfulEqOrd.compare_eq_iff_eq, h.taken e]
        cases e
        grind

/-- Offering successors one by one pushes those that have not been visited and takes their edges. -/
theorem foldl_offer (p : Preorder) (hb : ∀ c, p.taken.contains ⟨b, c⟩ = false) (cs : List Block) :
    Offered b cs p (cs.foldl (offer b) p) := by
  induction cs using List.reverseRecOn with
  | nil => exact ⟨rfl, rfl, by simp⟩
  | append_singleton cs c ih =>
    rw [List.foldl_append]
    exact ih.offer hb

/-- A traversal that has visited `seen`. The stack is described with the number of the pusher beside
each entry: numbers descend, and whatever a number leads to is visited or still on the stack. -/
structure Visited (f : Flow) (roots seen : List Block) (p : Preorder)
    (entries : List (Nat × Block)) : Prop where
  sized : p.visited.Sized
  capacity : p.visited.capacity = f.blockCount
  visited : ∀ b, p.visited.contains b = true ↔ b ∈ seen
  taken : ∀ e, p.taken.contains e = true → e.source ∈ seen
  nodup : seen.Nodup
  nested : f.Nested roots seen
  stack : entries.map Prod.snd = p.stack
  inside : ∀ e ∈ entries, f.has e.2 = true
  descending : entries.Pairwise fun x y => y.1 ≤ x.1
  pushed : ∀ e ∈ entries, f.Finds roots seen e.1 e.2
  complete : ∀ t b, f.Finds roots seen t b → b ∉ seen → (t, b) ∈ entries

/-- A traversal begins with the roots on the stack. -/
theorem visited_start (f : Flow) (roots : List Block) :
    Visited f roots [] (start f roots) ((f.validRoots roots).reverse.map (0, ·)) where
  sized := BlockSet.sized_empty _
  capacity := rfl
  visited b := by simp [start]
  taken e he := by simp [start] at he
  nodup := List.nodup_nil
  nested i b hb := by simp at hb
  stack := by
    rw [List.map_map]
    exact List.map_id _
  inside e he := by
    obtain ⟨b, hb, rfl⟩ := List.mem_map.mp he
    exact (List.mem_filter.mp (List.mem_reverse.mp hb)).2
  descending := by
    rw [List.pairwise_map]
    exact List.pairwise_of_forall fun _ _ => Nat.le_refl 0
  pushed e he := by
    obtain ⟨b, hb, rfl⟩ := List.mem_map.mp he
    exact List.mem_reverse.mp hb
  complete t b ht _ := by
    cases t with
    | zero => exact List.mem_map.mpr ⟨b, List.mem_reverse.mpr ht, rfl⟩
    | succ i =>
      obtain ⟨u, hu, _⟩ := ht
      cases hu

/-- An element that fails the test is not dropped with the front of a list. -/
theorem mem_dropWhile {α : Type} {q : α → Bool} {l : List α} {x : α} (h : x ∈ l)
    (hx : q x = false) : x ∈ l.dropWhile q := by
  rw [← List.takeWhile_append_dropWhile (p := q) (l := l), List.mem_append] at h
  rcases h with h | h
  · rw [List.mem_takeWhile_imp h] at hx
    cases hx
  · exact h

/-- Dropping visited blocks from the top of the stack. -/
private theorem Visited.settle {entries : List (Nat × Block)} (h : Visited f roots seen p entries) :
    Visited f roots seen p.settle (entries.dropWhile fun e => p.visited.contains e.2) := by
  have hsub : (entries.dropWhile fun e => p.visited.contains e.2) ⊆ entries :=
    (List.dropWhile_sublist _).subset
  refine { h with stack := ?_, inside := ?_, descending := ?_, pushed := ?_, complete := ?_ }
  · rw [Preorder.settle, ← h.stack, List.dropWhile_map]
    rfl
  · intro e he
    exact h.inside e (hsub he)
  · exact h.descending.sublist (List.dropWhile_sublist _)
  · intro e he
    exact h.pushed e (hsub he)
  · intro t b ht hb
    apply mem_dropWhile (h.complete t b ht hb)
    rw [← Bool.not_eq_true, h.visited]
    exact hb

/-- The top of a settled stack has not been visited. -/
theorem contains_head_settle (hb : p.settle.stack.head? = some b) : p.visited.contains b = false := by
  have hx := List.head?_dropWhile_not p.visited.contains p.stack
  change (p.stack.dropWhile p.visited.contains).head? = some b at hb
  rw [hb] at hx
  simpa using hx

private theorem Visited.head_settle {entries : List (Nat × Block)}
    (h : Visited f roots seen p entries) (hb : p.settle.stack.head? = some b) : b ∉ seen := by
  rw [← h.visited, contains_head_settle hb]
  simp

private theorem Visited.contains_insert {entries : List (Nat × Block)}
    (h : Visited f roots seen p entries) (hb : f.has b = true) (c : Block) :
    (p.visited.insert b).contains c = true ↔ c ∈ seen ++ [b] := by
  have hlt : b.index < p.visited.capacity := by
    rw [h.capacity]
    exact of_decide_eq_true hb
  rw [BlockSet.contains_insert h.sized, Bool.or_eq_true, h.visited, List.mem_append,
    List.mem_singleton]
  simp [hlt]

/-- No edge of an unvisited block has been taken. -/
theorem Visited.taken_eq_false {entries : List (Nat × Block)} (h : Visited f roots seen p entries)
    (hb : b ∉ seen) (c : Block) : p.taken.contains ⟨b, c⟩ = false := by
  rw [← Bool.not_eq_true]
  intro hc
  exact hb (h.taken _ hc)

section

variable {t : Nat} {tail : List (Nat × Block)} {q : Preorder}

/-- The entry on top of the stack has the greatest number that leads to an unvisited block. -/
private theorem Visited.nested_concat (h : Visited f roots seen p ((t, b) :: tail)) :
    f.Nested roots (seen ++ [b]) := by
  apply h.nested.concat (h.pushed (t, b) List.mem_cons_self)
  intro u c huc hc hne
  rcases List.mem_cons.mp (h.complete u c huc hc) with he | he
  · exact absurd (congrArg Prod.snd he) hne
  · exact (List.pairwise_cons.mp h.descending).1 _ he

/-- What a number leads to is still on the stack after the block on top has been visited. -/
private theorem Visited.complete_push (h : Visited f roots seen p ((t, b) :: tail))
    {u : Nat} {c : Block} (huc : f.Finds roots (seen ++ [b]) u c) (hc : c ∉ seen ++ [b]) :
    (u, c) ∈ (pushes (p.visited.insert b) (f.successors b)).map (seen.length + 1, ·) ++ tail := by
  have hnew : (p.visited.insert b).contains c = false := by
    rw [← Bool.not_eq_true, h.contains_insert (h.inside (t, b) List.mem_cons_self)]
    exact hc
  rw [List.mem_append, List.mem_singleton, not_or] at hc
  rcases Nat.lt_or_ge seen.length u with hlt | hge
  · have hu := huc.le_length
    rw [List.length_append, List.length_singleton] at hu
    obtain rfl : u = seen.length + 1 := by omega
    obtain ⟨x, hx, hxc⟩ := huc
    rw [List.getElem?_concat_length] at hx
    cases hx
    apply List.mem_append_left
    exact List.mem_map.mpr ⟨c, mem_pushes.mpr ⟨hxc, hnew⟩, rfl⟩
  · have he := h.complete u c ((Flow.finds_append hge).mp huc) hc.1
    rcases List.mem_cons.mp he with he | he
    · exact absurd (congrArg Prod.snd he) hc.2
    · exact List.mem_append_right _ he

/-- Marking the block on top of the stack and pushing its successors. The new entries carry the number
of the block, which is greater than all others on the stack. -/
private theorem Visited.push (hf : f.InRange) (h : Visited f roots seen p ((t, b) :: tail))
    (hs : p.stack = b :: below) (hb : b ∉ seen)
    (ho : Offered b (f.successors b) { p with stack := below, visited := p.visited.insert b } q) :
    Visited f roots (seen ++ [b]) q
      ((pushes (p.visited.insert b) (f.successors b)).map (seen.length + 1, ·) ++ tail) := by
  have hhas : f.has b = true := h.inside (t, b) List.mem_cons_self
  have htail : ∀ e ∈ tail, e ∈ (t, b) :: tail := fun e he => List.mem_cons_of_mem _ he
  have hmem : ∀ e ∈ (pushes (p.visited.insert b) (f.successors b)).map (seen.length + 1, ·) ++ tail,
      (e.1 = seen.length + 1 ∧ e.2 ∈ f.successors b) ∨ e ∈ tail := by
    intro e he
    rcases List.mem_append.mp he with he | he
    · obtain ⟨c, hc, rfl⟩ := List.mem_map.mp he
      exact Or.inl ⟨rfl, (mem_pushes.mp hc).1⟩
    · exact Or.inr he
  refine ⟨?_, ?_, ?_, ?_, ?_, h.nested_concat, ?_, ?_, ?_, ?_, fun _ _ => h.complete_push⟩
  · rw [ho.visited]
    exact BlockSet.sized_insert h.sized b
  · rw [ho.visited, BlockSet.capacity_insert]
    exact h.capacity
  · rw [ho.visited]
    exact h.contains_insert hhas
  · intro e he
    rcases (ho.taken e).mp he with he | ⟨he, _⟩
    · exact List.mem_append_left _ (h.taken e he)
    · rw [he]
      exact List.mem_append_right _ List.mem_cons_self
  · apply List.nodup_append.mpr
    refine ⟨h.nodup, by simp, ?_⟩
    intro c hc d hd
    rw [List.mem_singleton.mp hd]
    exact fun he => hb (he ▸ hc)
  · have hbelow : tail.map Prod.snd = below := (List.cons.inj (h.stack.trans hs)).2
    rw [ho.stack, List.map_append, hbelow, List.map_map]
    exact congrArg (· ++ below) (List.map_id _)
  · intro e he
    rcases hmem e he with ⟨_, he⟩ | he
    · exact hf b e.2 hhas he
    · exact h.inside e (htail e he)
  · apply List.pairwise_append.mpr
    refine ⟨?_, (List.pairwise_cons.mp h.descending).2, ?_⟩
    · rw [List.pairwise_map]
      exact List.pairwise_of_forall fun _ _ => Nat.le_refl _
    · intro x hx y hy
      obtain ⟨c, _, rfl⟩ := List.mem_map.mp hx
      exact Nat.le_succ_of_le (h.pushed y (htail y hy)).le_length
  · intro e he
    rcases hmem e he with ⟨hn, he⟩ | he
    · rw [hn]
      exact ⟨b, by simp, he⟩
    · have hp := h.pushed e (htail e he)
      exact (Flow.finds_append hp.le_length).mpr hp

end

/-- A traversal ends with an empty stack. -/
theorem stack_of_next_none (h : next? f p = none) : p.stack = [] := by
  unfold next? at h
  split at h
  · assumption
  · cases h

/-- The block visited next is on top of the stack. -/
theorem head_of_next {q : Preorder} (h : next? f p = some (b, q)) : p.stack.head? = some b := by
  unfold next? at h
  split at h
  · cases h
  · next hs =>
    cases h
    rw [hs]
    rfl

/-- What one visit makes of a traversal, if no edge of the visited block was taken before: the block
leaves the stack and is marked, its successors are offered, and visited blocks are dropped. -/
theorem offered_next {q : Preorder} (hb : ∀ c, p.taken.contains ⟨b, c⟩ = false)
    (hq : next? f p = some (b, q)) : ∃ below o, p.stack = b :: below ∧ q = o.settle ∧
      Offered b (f.successors b) { p with stack := below, visited := p.visited.insert b } o := by
  unfold next? at hq
  split at hq
  · cases hq
  · next c below hs =>
    cases hq
    refine ⟨below, _, hs, rfl, ?_⟩
    exact foldl_offer { p with stack := below, visited := p.visited.insert b } hb (f.successors b)

/-- One visit of a traversal. -/
theorem Visited.next (hf : f.InRange) {entries : List (Nat × Block)} {q : Preorder}
    (h : Visited f roots seen p entries) (hfresh : ∀ b, p.stack.head? = some b → b ∉ seen)
    (hq : next? f p = some (b, q)) :
    (∃ entries', Visited f roots (seen ++ [b]) q entries') ∧
      ∀ c, q.stack.head? = some c → c ∉ seen ++ [b] := by
  have hb : b ∉ seen := hfresh b (head_of_next hq)
  obtain ⟨below, o, hs, rfl, ho⟩ := offered_next (h.taken_eq_false hb) hq
  obtain ⟨⟨t, c⟩, tail, rfl, rfl, _⟩ : ∃ e tail, entries = e :: tail ∧ e.2 = b ∧
      tail.map Prod.snd = below := List.map_eq_cons_iff.mp (h.stack.trans hs)
  have hpush := h.push hf hs hb ho
  exact ⟨⟨_, hpush.settle⟩, fun d => hpush.head_settle⟩

/-- What one visit makes of the stack, if no edge of the visited block was taken before. -/
theorem stack_next {q : Preorder} (hb : ∀ c, p.taken.contains ⟨b, c⟩ = false)
    (hq : next? f p = some (b, q)) : ∃ below, p.stack = b :: below ∧
      q.stack = (pushes q.visited (f.successors b) ++ below).dropWhile q.visited.contains := by
  obtain ⟨below, o, hs, rfl, ho⟩ := offered_next hb hq
  refine ⟨below, hs, ?_⟩
  simp only [settle]
  rw [ho.stack, ho.visited]

/-- A traversal that goes on to its end leaves nothing open. -/
theorem Visited.finish (hf : f.InRange) {entries : List (Nat × Block)}
    (h : Visited f roots seen p entries) (hfresh : ∀ b, p.stack.head? = some b → b ∉ seen) :
    (seen ++ rest f p).Nodup ∧ f.Nested roots (seen ++ rest f p) ∧
      ∀ t b, f.Finds roots (seen ++ rest f p) t b → b ∈ seen ++ rest f p := by
  fun_induction rest f p generalizing seen entries with
  | case1 p hq =>
    have he : entries = [] := List.map_eq_nil_iff.mp (h.stack.trans (stack_of_next_none hq))
    rw [List.append_nil]
    refine ⟨h.nodup, h.nested, ?_⟩
    intro t b ht
    apply Classical.byContradiction
    intro hb
    have := h.complete t b ht hb
    rw [he] at this
    cases this
  | case2 p b q hq ih =>
    obtain ⟨⟨entries', h'⟩, hfresh'⟩ := h.next hf hfresh hq
    rw [List.append_cons]
    exact ih h' hfresh'

end Preorder

namespace Flow

variable {f : Flow} {roots : List Block} {b c : Block}

private theorem preorder_facts (hf : f.InRange) (roots : List Block) :
    (f.preorder roots).Nodup ∧ f.Nested roots (f.preorder roots) ∧
      ∀ t b, f.Finds roots (f.preorder roots) t b → b ∈ f.preorder roots :=
  (Preorder.visited_start f roots).finish hf fun _ _ => List.not_mem_nil

/-- No block is visited twice. -/
theorem nodup_preorder (hf : f.InRange) (roots : List Block) : (f.preorder roots).Nodup :=
  (preorder_facts hf roots).1

/-- The order of visits is nested. -/
theorem nested_preorder (hf : f.InRange) (roots : List Block) : f.Nested roots (f.preorder roots) :=
  (preorder_facts hf roots).2.1

/-- The order of visits is closed under successors. -/
theorem successor_mem_preorder (hf : f.InRange) (hb : b ∈ f.preorder roots)
    (hc : c ∈ f.successors b) : c ∈ f.preorder roots := by
  obtain ⟨i, hi⟩ := List.getElem?_of_mem hb
  exact (preorder_facts hf roots).2.2 (i + 1) c ⟨b, hi, hc⟩

private theorem reaches_of_nested {order : List Block} (h : f.Nested roots order) (i : Nat) :
    ∀ b, order[i]? = some b → f.Reaches roots b := by
  induction i using Nat.strongRecOn with
  | ind i ih =>
    intro b hb
    obtain ⟨t, ht, hfind, _⟩ := h i b hb
    cases t with
    | zero => exact reaches_of_mem hfind
    | succ j =>
      obtain ⟨u, hu, hub⟩ := hfind
      exact (ih j (by omega) u hu).successor hub

/-- Exactly the reachable blocks are visited. -/
theorem mem_preorder (hf : f.InRange) : b ∈ f.preorder roots ↔ f.Reaches roots b := by
  constructor
  · intro hb
    obtain ⟨i, hi⟩ := List.getElem?_of_mem hb
    exact reaches_of_nested (nested_preorder hf roots) i b hi
  · rintro ⟨r, hr, p, w⟩
    have hmem : r ∈ f.preorder roots := (preorder_facts hf roots).2.2 0 r hr
    clear hr
    induction w with
    | single => exact hmem
    | step hc _ ih => exact ih (successor_mem_preorder hf hmem hc)

end Flow
end Dominance
