import ScriptMinifier.Proofs.Idempotence

/-!
The style of line breaks is invisible. Texts that become the same once their line breaks are
replaced are minified alike, down to the place of an error, and no result keeps a carriage return.
-/

namespace ScriptMinifier

/-! ## 1. Replacing line breaks -/

namespace LineBreak

/-- The text with every carriage return that has a newline behind it replaced together with that
newline by one newline. -/
def replacePairs : List Char → List Char
  | [] => []
  | '\r' :: '\n' :: t => '\n' :: replacePairs t
  | c :: t => c :: replacePairs t

/-- The text with every carriage return replaced by a newline. -/
def replaceReturns (t : List Char) : List Char := t.map fun c => if c = '\r' then '\n' else c

theorem replaceReturns_cons_of_ne {c : Char} (h : c ≠ '\r') (t : List Char) :
    replaceReturns (c :: t) = c :: replaceReturns t :=
  congrArg (· :: replaceReturns t) (if_neg h)

-- First the pairs and then the other carriage returns, or all in one go.
theorem replaceReturns_replacePairs (t : List Char) :
    replaceReturns (replacePairs t) = normalize t := by
  fun_induction normalize t with
  | case1 => rfl
  | case2 t ih => rw [replacePairs, replaceReturns_cons_of_ne (by decide), ih]
  | case3 t hnext ih =>
    have hpairs : replacePairs ('\r' :: t) = '\r' :: replacePairs t := by
      rw [replacePairs]
      intro u _
      exact hnext u
    rw [hpairs, ← ih]
    rfl
  | case4 c t _ hc ih =>
    have hpairs : replacePairs (c :: t) = c :: replacePairs t := by
      rw [replacePairs]
      intro u hreturn
      exact absurd hreturn hc
    rw [hpairs, replaceReturns_cons_of_ne hc, ih]

end LineBreak

/-! ## 2. Runs over texts with other line breaks -/

/-- Two texts that differ in their line breaks only: both become the same text. -/
def SameLines (s t : String) : Prop :=
  LineBreak.replaceReturns (LineBreak.replacePairs s.toList) =
    LineBreak.replaceReturns (LineBreak.replacePairs t.toList)

variable {s t : String}

theorem SameLines.normalize_eq (h : SameLines s t) :
    LineBreak.normalize s.toList = LineBreak.normalize t.toList := by
  rwa [SameLines, LineBreak.replaceReturns_replacePairs, LineBreak.replaceReturns_replacePairs] at h

theorem SameLines.ofText_eq (h : SameLines s t) : Reading.ofText s = Reading.ofText t :=
  congrArg (Reading.read none) h.normalize_eq

-- A text only counts in its report for its size.
theorem Report.result_ofOutcome (text text' : String)
    (outcome : Except Abort (List Char × Array Record)) :
    (ofOutcome text outcome).result = (ofOutcome text' outcome).result := by
  cases outcome <;> rfl

/-- The style of line breaks is invisible: texts that differ in nothing else have the same result,
or the same error at the same place, and no result has a carriage return. -/
theorem minify_eq_of_sameLines (h : SameLines s t) :
    minify s = minify t ∧ ∀ o, minify s = .ok o → '\r' ∉ o.toList := by
  refine ⟨?_, fun o ho => Reading.return_notMem_of_minify ho⟩
  rw [minify, minify, report_eq, report_eq, h.ofText_eq]
  exact Report.result_ofOutcome s t _

theorem minify_eq_of_sameLines_mixed :
    SameLines "a\r\r\nb = 'c\\\r\nd' /* e\r */\r/f // g\r\n/\r"
        "a\n\nb = 'c\\\nd' /* e\n */\n/f // g\n/\n" ∧
      minify "a\r\r\nb = 'c\\\r\nd' /* e\r */\r/f // g\r\n/\r" = .ok "a\nb='c\\\nd'/f/" ∧
      '\r' ∉ "a\nb='c\\\nd'/f/".toList := by
  have hlines : SameLines "a\r\r\nb = 'c\\\r\nd' /* e\r */\r/f // g\r\n/\r"
      "a\n\nb = 'c\\\nd' /* e\n */\n/f // g\n/\n" := by
    unfold SameLines
    decide
  obtain ⟨hsame, hreturn⟩ := minify_eq_of_sameLines hlines
  have h : minify "a\n\nb = 'c\\\nd' /* e\n */\n/f // g\n/\n" = .ok "a\nb='c\\\nd'/f/" := by
    rw [minify_eq_ok_iff]
    decide +kernel
  exact ⟨hlines, hsame.trans h, hreturn _ (hsame.trans h)⟩

end ScriptMinifier
