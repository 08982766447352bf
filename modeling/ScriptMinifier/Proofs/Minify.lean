import ScriptMinifier.Proofs.Report

/-!
What minifying a text gives. A text whose reading leaves nothing open is written in its compact
layout, and any other text fails at the first construct that it leaves open.
-/

namespace ScriptMinifier

/-! ## 1. What is left open -/

/-- Behind an item that ends in `before`, the text begins with a construct that it does not
close. -/
def Construct.LeftOpen (before : Option Char) (t : List Char) : Construct → Prop
  | .comment => ∃ u, t = '/' :: '*' :: u ∧ ¬ ['*', '/'] <:+: u
  | .string => ∃ quote u, t = quote :: u ∧ CharClass.isQuote quote = true ∧
      Literal.Unclosed quote u
  | .regex => ∃ u, t = '/' :: u ∧ ¬ Comment.Opens t ∧
      before.any CharClass.introducesRegex = true ∧ Literal.Unclosed '/' u

namespace Reading

theorem leftOpen_of_first? {before : Option Char} {t : List Char} {k : Construct}
    (h : first? before t = some (.error k)) : k.LeftOpen before t := by
  cases t with
  | nil => cases h
  | cons ch t =>
    by_cases hopens : Comment.Opens (ch :: t)
    · rcases hopens with ⟨u, hu⟩ | ⟨u, hu⟩
      · rw [← hu] at h
        cases h
      · rw [← hu] at h ⊢
        simp only [first?, List.cons_append, List.nil_append] at h
        split at h
        · cases h
        · rename_i hsplit
          cases h
          exact ⟨u, rfl, Comment.splitBlock?_eq_none_iff.mp hsplit⟩
    rw [first?_of_not_opens hopens] at h
    split at h
    · rename_i hquote
      split at h
      · cases h
      · rename_i hsplit
        cases h
        exact ⟨ch, t, rfl, hquote, Literal.unclosed_of_split? hsplit⟩
    split at h
    · rename_i hregex
      obtain ⟨rfl, hintroduces⟩ := hregex
      split at h
      · cases h
      · rename_i hsplit
        cases h
        exact ⟨t, rfl, hopens, hintroduces, Literal.unclosed_of_split? hsplit⟩
    -- A single character leaves nothing open.
    split at h
    · cases h
    split at h <;> cases h

theorem first?_of_leftOpen {before : Option Char} {t : List Char} {k : Construct}
    (h : k.LeftOpen before t) : first? before t = some (.error k) := by
  cases k with
  | comment =>
    obtain ⟨u, rfl, hclose⟩ := h
    rw [first?, Comment.splitBlock?_eq_none_iff.mpr hclose]
  | string =>
    obtain ⟨quote, u, rfl, hquote, hunclosed⟩ := h
    obtain ⟨-, hescape, hnewline, -⟩ := CharClass.ne_of_isQuote hquote
    exact first?_unclosedString hquote
      ((Literal.split?_eq_none_iff hescape hnewline).mpr hunclosed)
  | regex =>
    obtain ⟨u, rfl, hopens, hintroduces, hunclosed⟩ := h
    exact first?_unclosedRegex hopens hintroduces
      ((Literal.split?_eq_none_iff (by decide) (by decide)).mpr hunclosed)

theorem first?_eq_error_iff {before : Option Char} {t : List Char} {k : Construct} :
    first? before t = some (.error k) ↔ k.LeftOpen before t :=
  ⟨leftOpen_of_first?, first?_of_leftOpen⟩

-- What a reading names as left open is left open behind the last item.
theorem leftOpen_read {before : Option Char} {t u : List Char} {k : Construct}
    (h : (read before t).leftOpen = some (k, u)) :
    k.LeftOpen ((read before t).lastBehind before) u := by
  fun_induction read before t with
  | case1 => cases h
  | case2 before t k' hfirst =>
    cases h
    exact first?_eq_error_iff.mp hfirst
  | case3 before t x rest hfirst r ih =>
    show k.LeftOpen ((r.prepend x).lastBehind before) u
    rw [lastBehind_prepend]
    exact ih h

end Reading

/-! ## 2. The result -/

/-- A text whose reading leaves nothing open is written in its compact layout. -/
theorem minify_eq_compact {text : String} (h : (Reading.ofText text).leftOpen = none) :
    minify text = .ok (Layout.compact (Reading.ofText text).lexemes) := by
  rw [minify, report_of_closed h]

theorem minify_eq_compact_mixed :
    (Reading.ofText "\tx = /a b/ in +\n/* 1 */ - y / z // d\n'e'").leftOpen = none ∧
      minify "\tx = /a b/ in +\n/* 1 */ - y / z // d\n'e'" = .ok "x=/a b/in+\n-y/z'e'" :=
  ⟨by decide +kernel, (minify_eq_compact (by decide +kernel)).trans (by decide +kernel)⟩

theorem minify_of_leftOpen {text : String} {k : Construct} {t : List Char}
    (h : (Reading.ofText text).leftOpen = some (k, t)) :
    minify text =
      .error ⟨k, Position.start.advance ((Reading.ofText text).lexemes.flatMap Lexeme.text)⟩ := by
  rw [minify, report_of_leftOpen h]

-- What was read up to the fault is a part of the text, also as the text was given.
theorem exists_append_of_leftOpen {text : String} {k : Construct} {t : List Char}
    (h : (Reading.ofText text).leftOpen = some (k, t)) :
    ∃ before opened, text.toList = before ++ opened ∧
      LineBreak.normalize before = (Reading.ofText text).lexemes.flatMap Lexeme.text ∧
      LineBreak.normalize opened = t := by
  have hspell : (Reading.ofText text).lexemes.flatMap Lexeme.text ++
      ((Reading.ofText text).leftOpen.map Prod.snd).getD [] = LineBreak.normalize text.toList :=
    Reading.flatMap_text_read none _
  rw [h] at hspell
  exact LineBreak.exists_append_of_normalize hspell.symm

/-- A text fails exactly if its reading leaves something open, and the fault is then the first
construct that is left open, at the place in the text as it was given. -/
theorem minify_eq_error_iff (text : String) :
    ((∃ fault, minify text = .error fault) ↔ (Reading.ofText text).leftOpen.isSome) ∧
      ∀ fault, minify text = .error fault ↔ ∃ before opened,
        text.toList = before ++ opened ∧
        LineBreak.normalize before = (Reading.ofText text).lexemes.flatMap Lexeme.text ∧
        (Reading.ofText text).leftOpen = some (fault.construct, LineBreak.normalize opened) ∧
        fault.construct.LeftOpen ((Reading.ofText text).items.getLast?.map Item.last)
          (LineBreak.normalize opened) ∧
        fault.opened = LineBreak.following before := by
  cases hopen : (Reading.ofText text).leftOpen with
  | none =>
    rw [minify, report_of_closed hopen]
    constructor
    · constructor
      · rintro ⟨fault, hfault⟩
        cases hfault
      · intro hsome
        cases hsome
    · intro fault
      constructor
      · intro hfault
        cases hfault
      · rintro ⟨before, opened, -, -, hsome, -⟩
        cases hsome
  | some p =>
    obtain ⟨k, t⟩ := p
    have hleft := Reading.leftOpen_read hopen
    rw [Reading.lastBehind, Option.or_none] at hleft
    rw [minify_of_leftOpen hopen]
    constructor
    · exact ⟨fun _ => rfl, fun _ => ⟨_, rfl⟩⟩
    intro fault
    constructor
    · intro hfault
      cases hfault
      obtain ⟨before, opened, htext, hbefore, hopened⟩ := exists_append_of_leftOpen hopen
      have hplace := LineBreak.following_eq_advance before
      refine ⟨before, opened, htext, hbefore, ?_, ?_, ?_⟩
      · rw [hopened]
      · rw [hopened]
        exact hleft
      · rw [hplace, hbefore]
    · rintro ⟨before, opened, -, hbefore, hconstruct, -, hplace⟩
      obtain ⟨construct, opened'⟩ := fault
      cases hconstruct
      rw [show opened' = LineBreak.following before from hplace]
      rw [LineBreak.following_eq_advance, hbefore]

end ScriptMinifier
