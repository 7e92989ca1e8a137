import Mathlib.Data.List.Induction
import Dominance.Drawing.Unescape

/-!
# Escaping as a code

The replacements act on every character by itself, whatever its neighbours are. Each character has a
code, and the codes are read back from the left. They hold no newline, and within a string they neither
end it nor break a line of a label. Whatever means something in a label stands after an odd number of
backslashes, because the codes before it end in an even number.
-/

namespace Dominance.Drawing

variable {allowed : Char → Prop} {c : Char} {s t : List Char}

/-! ## The code of a character -/

/-- A replacement acts on the parts of a text by themselves. -/
theorem foldl_replaceChar_append (rs : List (Char × List Char)) (s t : List Char) :
    rs.foldl (fun s r => replaceChar r.1 r.2 s) (s ++ t) =
      rs.foldl (fun s r => replaceChar r.1 r.2 s) s ++
        rs.foldl (fun s r => replaceChar r.1 r.2 s) t := by
  induction rs generalizing s t with
  | nil => rfl
  | cons r rs ih =>
    simp only [List.foldl_cons]
    rw [← ih, replaceChar, List.flatMap_append]
    rfl

/-- A character that is not to be replaced stays. -/
theorem foldl_replaceChar_of_not_mem {rs : List (Char × List Char)} (hc : c ∉ rs.map Prod.fst) :
    rs.foldl (fun s r => replaceChar r.1 r.2 s) [c] = [c] := by
  induction rs with
  | nil => rfl
  | cons r rs ih =>
    rw [List.map_cons, List.mem_cons, not_or] at hc
    have hr : replaceChar r.1 r.2 [c] = [c] := by simp [replaceChar, hc.1]
    rw [List.foldl_cons, hr]
    exact ih hc.2

/-- The four kinds of characters: a newline, a carriage return, one that means something in a label,
and any other. -/
theorem escapeChar_cases (c : Char) :
    (c = '\n' ∧ escapeChar c = ['\\', 'n']) ∨ (c = '\r' ∧ escapeChar c = []) ∨
    (c ∈ ['\\', '\x22', '<', '>', '\x7b', '\x7d'] ∧ escapeChar c = ['\\', c]) ∨
    (c ∉ replacements.map Prod.fst ∧ escapeChar c = [c]) := by
  unfold escapeChar
  by_cases hn : c = '\n'
  · simp [hn]
  · by_cases hr : c = '\r'
    · simp [hr]
    · by_cases hs : c ∈ ['\\', '\x22', '<', '>', '\x7b', '\x7d']
      · simp [hn, hr, hs]
      · simp only [List.mem_cons, List.not_mem_nil, or_false, not_or] at hs
        simp [hn, hr, hs, replacements]

private theorem escapeChars_singleton (c : Char) : escapeChars [c] = escapeChar c := by
  rcases escapeChar_cases c with ⟨rfl, _⟩ | ⟨rfl, _⟩ | ⟨hc, _⟩ | ⟨hc, hcode⟩
  · rfl
  · rfl
  · simp only [List.mem_cons, List.not_mem_nil, or_false] at hc
    rcases hc with rfl | rfl | rfl | rfl | rfl | rfl <;> rfl
  · rw [hcode]
    exact foldl_replaceChar_of_not_mem hc

/-- Escaping writes the codes of all characters in turn. -/
theorem escapeChars_cons (c : Char) (s : List Char) :
    escapeChars (c :: s) = escapeChar c ++ escapeChars s := by
  rw [← escapeChars_singleton]
  exact foldl_replaceChar_append replacements [c] s

private theorem escapeChars_eq_flatMap (s : List Char) : escapeChars s = s.flatMap escapeChar := by
  induction s with
  | nil => rfl
  | cons c s ih => rw [escapeChars_cons, ih, List.flatMap_cons]

/-- Carriage returns are written as nothing. -/
theorem escapeChars_withoutReturns (s : List Char) :
    escapeChars (withoutReturns s) = escapeChars s := by
  induction s with
  | nil => rfl
  | cons c s ih =>
    by_cases hc : c = '\r'
    · have hdrop : withoutReturns (c :: s) = withoutReturns s := by simp [withoutReturns, hc]
      have hcode : escapeChar c = [] := by simp [escapeChar, hc]
      rw [hdrop, ih, escapeChars_cons, hcode, List.nil_append]
    · have hkeep : withoutReturns (c :: s) = c :: withoutReturns s := by simp [withoutReturns, hc]
      rw [hkeep, escapeChars_cons, escapeChars_cons, ih]

/-! ## Reading codes -/

/-- The code of a character is read as the character, or as nothing if it is a carriage return. -/
theorem unescapeChars_escapeChar_append (c : Char) (t : List Char) :
    unescapeChars (escapeChar c ++ t) = withoutReturns [c] ++ unescapeChars t := by
  rcases escapeChar_cases c with ⟨rfl, h⟩ | ⟨rfl, h⟩ | ⟨hc, h⟩ | ⟨hc, h⟩
  · rw [h]
    rfl
  · rw [h]
    rfl
  · rw [h]
    simp only [List.mem_cons, List.not_mem_nil, or_false] at hc
    rcases hc with rfl | rfl | rfl | rfl | rfl | rfl <;> rfl
  · rw [h]
    simp only [replacements, List.map_cons, List.map_nil, List.mem_cons, List.not_mem_nil, or_false,
      not_or] at hc
    simp [unescapeChars, withoutReturns, hc]

/-- Escaped text is read as the text without its carriage returns. -/
theorem unescapeChars_escapeChars (s : List Char) :
    unescapeChars (escapeChars s) = withoutReturns s := by
  induction s with
  | nil => rfl
  | cons c s ih =>
    rw [escapeChars_cons, unescapeChars_escapeChar_append, ih]
    exact (List.filter_append [c] s).symm

/-! ## What a string may hold -/

/-- Text of which no quote stands alone, in which every backslash takes a character with it, and only
one that is allowed. -/
inductive Written (allowed : Char → Prop) : List Char → Prop where
  | nil : Written allowed []
  | plain {c : Char} {s : List Char} (hb : c ≠ '\\') (hq : c ≠ '\x22') (h : Written allowed s) :
    Written allowed (c :: s)
  | escaped {c : Char} {s : List Char} (hc : allowed c) (h : Written allowed s) :
    Written allowed ('\\' :: c :: s)

/-- Two texts that may stand in a string may stand there one after the other. -/
theorem Written.append (hs : Written allowed s) (ht : Written allowed t) :
    Written allowed (s ++ t) := by
  induction hs with
  | nil => exact ht
  | plain hb hq _ ih => exact .plain hb hq ih
  | escaped hc _ ih => exact .escaped hc ih

/-- What may stand in a string may stand there if more is allowed. -/
theorem Written.mono {more : Char → Prop} (h : ∀ c, allowed c → more c) (hs : Written allowed s) :
    Written more s := by
  induction hs with
  | nil => exact .nil
  | plain hb hq _ ih => exact .plain hb hq ih
  | escaped hc _ ih => exact .escaped (h _ hc) ih

/-- Text without backslashes and quotes may stand in a string. -/
theorem written_of_forall (h : ∀ c ∈ s, c ≠ '\\' ∧ c ≠ '\x22') : Written allowed s := by
  induction s with
  | nil => exact .nil
  | cons c s ih =>
    rw [List.forall_mem_cons] at h
    exact .plain h.1.1 h.1.2 (ih h.2)

/-- Text without escapes is read as it is, whatever follows it. -/
theorem unescapeChars_append_of_forall (h : ∀ c ∈ s, c ≠ '\\') (t : List Char) :
    unescapeChars (s ++ t) = s ++ unescapeChars t := by
  induction s with
  | nil => rfl
  | cons c s ih =>
    rw [List.forall_mem_cons] at h
    simp [unescapeChars, h.1, ih h.2]

/-- The code of a character may stand in a string and is no break. -/
theorem written_escapeChar (c : Char) : Written (· ≠ 'l') (escapeChar c) := by
  rcases escapeChar_cases c with ⟨_, h⟩ | ⟨_, h⟩ | ⟨hc, h⟩ | ⟨hc, h⟩
  · rw [h]
    exact .escaped (by decide) .nil
  · rw [h]
    exact .nil
  · rw [h]
    refine .escaped ?_ .nil
    rintro rfl
    simp at hc
  · rw [h]
    simp only [replacements, List.map_cons, List.mem_cons, not_or] at hc
    exact .plain hc.1 hc.2.1 .nil

/-- Escaped text may stand in a string and breaks no line of a label. -/
theorem written_escapeChars (s : List Char) : Written (· ≠ 'l') (escapeChars s) := by
  induction s with
  | nil => exact .nil
  | cons c s ih =>
    rw [escapeChars_cons]
    exact (written_escapeChar c).append ih

/-- Escaped text is all on one line. -/
theorem newline_not_mem_escapeChars (s : List Char) : '\n' ∉ escapeChars s := by
  induction s with
  | nil => exact List.not_mem_nil
  | cons c s ih =>
    rw [escapeChars_cons, List.mem_append, not_or]
    refine ⟨?_, ih⟩
    rcases escapeChar_cases c with ⟨_, h⟩ | ⟨_, h⟩ | ⟨hc, h⟩ | ⟨hc, h⟩
    · simp [h]
    · simp [h]
    · rw [h]
      simp only [List.mem_cons, List.not_mem_nil, or_false] at hc ⊢
      grind
    · rw [h]
      simp only [replacements, List.map_cons, List.mem_cons, not_or] at hc
      simpa using Ne.symm hc.2.2.1

/-! ## Runs of backslashes -/

private theorem trailingBackslashes_concat (s : List Char) (c : Char) :
    trailingBackslashes (s ++ [c]) = if c = '\\' then trailingBackslashes s + 1 else 0 := by
  unfold trailingBackslashes
  by_cases hc : c = '\\' <;> simp [hc]

private theorem escapeChars_concat (s : List Char) (c : Char) :
    escapeChars (s ++ [c]) = escapeChars s ++ escapeChar c := by
  simp [escapeChars_eq_flatMap]

/-- Escaped text ends in an even number of backslashes: a code adds two of them or, if it is not that
of a carriage return, leaves none. -/
theorem trailingBackslashes_escapeChars (s : List Char) :
    trailingBackslashes (escapeChars s) % 2 = 0 := by
  induction s using List.reverseRecOn with
  | nil => rfl
  | append_singleton s c ih =>
    rw [escapeChars_concat]
    rcases escapeChar_cases c with ⟨_, h⟩ | ⟨_, h⟩ | ⟨_, h⟩ | ⟨hc, h⟩
    · rw [h, ← List.singleton_append, ← List.append_assoc, trailingBackslashes_concat,
        if_neg (by decide)]
    · rw [h, List.append_nil, ih]
    · rw [h, ← List.singleton_append, ← List.append_assoc, trailingBackslashes_concat,
        trailingBackslashes_concat, if_pos rfl]
      split
      · omega
      · rfl
    · have hne : c ≠ '\\' := by
        rintro rfl
        exact hc (by simp [replacements])
      rw [h, trailingBackslashes_concat, if_neg hne]

/-- Within a code, a mark stands after one backslash. -/
theorem mark_in_escapeChar {d : Char} (hc : c ∈ marks) (h : escapeChar d = s ++ c :: t) :
    s = ['\\'] := by
  have hne : c ≠ '\\' := by
    rintro rfl
    simp [marks] at hc
  have hpair : ∀ x, ['\\', x] = s ++ c :: t → s = ['\\'] := by
    intro x hx
    rcases s with _ | ⟨y, _ | ⟨z, s⟩⟩
    · exact absurd (List.cons.inj hx).1.symm hne
    · rw [(List.cons.inj hx).1]
    · simp at hx
  rcases escapeChar_cases d with ⟨_, hd⟩ | ⟨_, hd⟩ | ⟨_, hd⟩ | ⟨hplain, hd⟩
  · exact hpair _ (hd ▸ h)
  · simp [hd] at h
  · exact hpair _ (hd ▸ h)
  · rw [hd] at h
    rcases s with _ | ⟨x, s⟩
    · obtain ⟨rfl, _⟩ := List.cons.inj h
      simp only [marks, List.mem_cons, List.not_mem_nil, or_false] at hc
      rcases hc with rfl | rfl | rfl | rfl | rfl <;> simp [replacements] at hplain
    · simp at h

/-- In escaped text a mark stands after an odd number of backslashes. -/
theorem trailingBackslashes_before_mark (hc : c ∈ marks) {before after : List Char}
    (h : escapeChars s = before ++ c :: after) : trailingBackslashes before % 2 = 1 := by
  induction s using List.reverseRecOn generalizing before after with
  | nil => simp [escapeChars_eq_flatMap] at h
  | append_singleton s d ih =>
    -- The mark stands in the last code or before it.
    have hlast : ∀ part, escapeChar d = part ++ c :: after →
        trailingBackslashes (escapeChars s ++ part) % 2 = 1 := by
      intro part hpart
      have heven := trailingBackslashes_escapeChars s
      rw [mark_in_escapeChar hc hpart, trailingBackslashes_concat, if_pos rfl]
      omega
    rw [escapeChars_concat] at h
    rcases List.append_eq_append_iff.mp h with ⟨part, hbefore, hpart⟩ | ⟨part, hs, hpart⟩
    · rw [hbefore]
      exact hlast part hpart
    · cases part with
      | nil =>
        rw [List.append_nil] at hs
        have := hlast [] hpart.symm
        rwa [List.append_nil, hs] at this
      | cons x part =>
        obtain ⟨rfl, _⟩ := List.cons.inj hpart
        exact ih hs

/-! ## The code as a whole -/

/-- Escaping a string is escaping its characters. -/
theorem toList_escape (s : String) : (escape s).toList = escapeChars s.toList := by simp [escape]

/-- Two texts are escaped alike exactly if they differ in carriage returns only. -/
theorem escape_eq_iff (s t : String) :
    escape s = escape t ↔ withoutReturns s.toList = withoutReturns t.toList := by
  constructor
  · intro h
    rw [← unescapeChars_escapeChars, ← unescapeChars_escapeChars, ← toList_escape, ← toList_escape, h]
  · intro h
    rw [escape, escape, ← escapeChars_withoutReturns, h, escapeChars_withoutReturns]

/-- The replacements, made one after the other on the whole text, write the code of each character by
itself. Reading the codes from the left gives the text without its carriage returns, so exactly the texts
that agree without them are escaped alike. In escaped text every quote, angle bracket and brace stands
after an odd number of backslashes, and the text ends in an even number. -/
theorem escape_faithful (s t : String) :
    (escape s).toList = s.toList.flatMap escapeChar ∧
    unescapeChars (escape s).toList = withoutReturns s.toList ∧
    (escape s = escape t ↔ withoutReturns s.toList = withoutReturns t.toList) ∧
    (∀ before c after, c ∈ marks → (escape s).toList = before ++ c :: after →
      trailingBackslashes before % 2 = 1) ∧
    trailingBackslashes (escape s).toList % 2 = 0 := by
  rw [toList_escape]
  exact ⟨escapeChars_eq_flatMap _, unescapeChars_escapeChars _, escape_eq_iff s t,
    fun _ _ _ hc h => trailingBackslashes_before_mark hc h, trailingBackslashes_escapeChars _⟩

/-- Backslashes before a quote, a newline and the end; the texts differ in one carriage return. -/
theorem escape_faithful_backslashes :
    let s := "\\\"\r\n\\"
    escape s = escape "\\\"\n\\" ∧ unescapeChars (escape s).toList = "\\\"\n\\".toList ∧
      (escape s).toList = ['\\', '\\', '\\'] ++ '\x22' :: ['\\', 'n', '\\', '\\'] ∧
      trailingBackslashes ['\\', '\\', '\\'] % 2 = 1 := by
  intro s
  obtain ⟨_, hread, hequal, hmark, _⟩ := escape_faithful s "\\\"\n\\"
  have hreturns : withoutReturns s.toList = withoutReturns "\\\"\n\\".toList := by decide
  have hcode : (escape s).toList =
      ['\\', '\\', '\\'] ++ '\x22' :: ['\\', 'n', '\\', '\\'] := by
    decide
  refine ⟨hequal.mpr hreturns, ?_, hcode, hmark _ _ _ (by decide) hcode⟩
  rw [hread, hreturns]
  decide

end Dominance.Drawing
