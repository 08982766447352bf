import ScriptMinifier.CharClass

/-!
What each character class contains, and how the classes lie to each other. What keeps a separator
behind it introduces no regular expression, and what keeps one in front of it opens no literal and
no comment.
-/

namespace ScriptMinifier.CharClass

/-! ## 1. The members of the classes -/

theorem isWord_iff {c : Char} :
    isWord c = true ↔ '~' < c ∨ c ∈ ['\\', '_', '$'] ∨
      'A' ≤ c ∧ c ≤ 'Z' ∨ 'a' ≤ c ∧ c ≤ 'z' ∨ '0' ≤ c ∧ c ≤ '9' := by
  have hupper : c.isUpper = true ↔ 'A' ≤ c ∧ c ≤ 'Z' := decide_eq_true_iff
  have hlower : c.isLower = true ↔ 'a' ≤ c ∧ c ≤ 'z' := by
    show (decide ('a' ≤ c) && decide (c ≤ 'z')) = true ↔ _
    rw [Bool.and_eq_true, decide_eq_true_iff, decide_eq_true_iff]
  have hdigit : c.isDigit = true ↔ '0' ≤ c ∧ c ≤ '9' := by
    show (decide ('0' ≤ c) && decide (c ≤ '9')) = true ↔ _
    rw [Bool.and_eq_true, decide_eq_true_iff, decide_eq_true_iff]
  have halphanum : c.isAlphanum = true ↔ (c.isUpper = true ∨ c.isLower = true) ∨
      c.isDigit = true := by
    show (c.isUpper || c.isLower || c.isDigit) = true ↔ _
    rw [Bool.or_eq_true, Bool.or_eq_true]
  simp [isWord, halphanum, hupper, hlower, hdigit, or_assoc]

theorem keepsBreakBefore_iff {c : Char} :
    keepsBreakBefore c = true ↔ c ∈ ['{', '[', '(', '+', '-'] := by
  simp [keepsBreakBefore]

theorem keepsBreakAfter_iff {c : Char} :
    keepsBreakAfter c = true ↔ c ∈ ['}', ']', ')', '+', '-', '"', '\''] := by
  simp [keepsBreakAfter]

theorem isQuote_iff {c : Char} : isQuote c = true ↔ c = '\'' ∨ c = '"' := by
  simp [isQuote]

theorem introducesRegex_iff {c : Char} :
    introducesRegex c = true ↔ c ∈ ['(', ',', '=', ':', '[', '!', '&', '|', '?'] := by
  simp [introducesRegex]

/-! ## 2. How the classes lie to each other -/

theorem ne_of_isQuote {c : Char} (h : isQuote c = true) :
    c ≠ '/' ∧ c ≠ '\\' ∧ c ≠ '\n' ∧ ' ' < c := by
  rcases isQuote_iff.mp h with rfl | rfl <;> decide

theorem isQuote_eq_false_of_le {c : Char} (h : c ≤ ' ') : isQuote c = false := by
  rw [← Bool.not_eq_true]
  intro hquote
  exact Char.not_le.mpr (ne_of_isQuote hquote).2.2.2 h

theorem isWord_eq_false_of_le {c : Char} (h : c ≤ ' ') : isWord c = false := by
  have hbelow {x : Char} (hx : x ≤ c) : x ≤ ' ' := Std.le_trans hx h
  rw [← Bool.not_eq_true, isWord_iff]
  rintro (htilde | hmem | ⟨hletter, -⟩ | ⟨hletter, -⟩ | ⟨hdigit, -⟩)
  · exact absurd (hbelow (Std.le_of_lt htilde)) (by decide)
  · simp only [List.mem_cons, List.not_mem_nil, or_false] at hmem
    rcases hmem with rfl | rfl | rfl <;> exact absurd h (by decide)
  · exact absurd (hbelow hletter) (by decide)
  · exact absurd (hbelow hletter) (by decide)
  · exact absurd (hbelow hdigit) (by decide)

theorem foldControl_of_blank {c : Char} (h : c ≤ ' ') (hnewline : c ≠ '\n') :
    foldControl c = ' ' := by
  by_cases hlt : c < ' '
  · simp [foldControl, hlt, hnewline]
  · rw [Std.le_antisymm h (Char.not_lt.mp hlt)]
    rfl

-- Folding tells separators from the characters that stay as they are.
theorem foldControl_cases (c : Char) :
    c = '\n' ∨ (c ≤ ' ' ∧ c ≠ '\n' ∧ foldControl c = ' ') ∨ (' ' < c ∧ foldControl c = c) := by
  by_cases hnewline : c = '\n'
  · exact .inl hnewline
  by_cases hspace : c ≤ ' '
  · exact .inr (.inl ⟨hspace, hnewline, foldControl_of_blank hspace hnewline⟩)
  · have hvisible := Char.not_le.mp hspace
    exact .inr (.inr ⟨hvisible, foldControl_of_le (Std.le_of_lt hvisible)⟩)

theorem space_lt_of_introducesRegex {c : Char} (h : introducesRegex c = true) : ' ' < c := by
  have hmem := introducesRegex_iff.mp h
  simp only [List.mem_cons, List.not_mem_nil, or_false] at hmem
  rcases hmem with rfl | rfl | rfl | rfl | rfl | rfl | rfl | rfl | rfl <;> decide

-- No separator stays between an operator and the slash that it introduces.
theorem introducesRegex_eq_false {c : Char} (h : (keepsBreakAfter c || isWord c) = true) :
    introducesRegex c = false := by
  rw [← Bool.not_eq_true]
  intro hintroduces
  have hmem := introducesRegex_iff.mp hintroduces
  simp only [List.mem_cons, List.not_mem_nil, or_false] at hmem
  rcases hmem with rfl | rfl | rfl | rfl | rfl | rfl | rfl | rfl | rfl <;>
    exact absurd h (by decide)

-- A character in front of which a separator stays is an item of its own.
theorem ne_of_keepsBreakBefore {c : Char} (h : (keepsBreakBefore c || isWord c) = true) :
    c ≠ '/' ∧ isQuote c = false := by
  constructor
  · rintro rfl
    exact absurd h (by decide)
  · rw [← Bool.not_eq_true, isQuote_iff]
    rintro (rfl | rfl) <;> exact absurd h (by decide)

-- Comments and line breaks can be told from folded characters too.
theorem foldControl_eq_iff {c x : Char} (hx : x = '\n' ∨ ' ' < x) :
    foldControl c = x ↔ c = x := by
  by_cases hcontrol : c < ' ' ∧ c ≠ '\n'
  · obtain ⟨hlt, hnewline⟩ := hcontrol
    have hfold : foldControl c = ' ' := by simp [foldControl, hlt, hnewline]
    rw [hfold]
    rcases hx with rfl | hx
    · exact ⟨fun h => absurd h (by decide), fun h => absurd h hnewline⟩
    · constructor
      · rintro rfl
        exact absurd hx (by decide)
      · rintro rfl
        exact absurd (Std.lt_trans hx hlt) (by decide)
  · have hfold : foldControl c = c := by
      unfold foldControl
      rw [if_neg (by simpa using hcontrol)]
    rw [hfold]

end ScriptMinifier.CharClass
