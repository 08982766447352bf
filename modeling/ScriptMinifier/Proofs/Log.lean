import ScriptMinifier.Proofs.Minify

/-!
The log of a run. It names the slashes that follow an opener of regular expressions, in the order
of the text and no others, and then the way in which the run ended.
-/

namespace ScriptMinifier

/-! ## 1. Slashes -/

/-- For each slash among the parts `xs` that begins no comment and is in no literal, the
significant character nearest before it, if there is one. The significant text before the parts
is `t`. -/
def slashesBehind (t : List Char) : List Lexeme → List (Option Char)
  | [] => []
  | .item i :: xs =>
    (if i.first = '/' then [t.getLast?] else []) ++ slashesBehind (t ++ i.text) xs
  | _ :: xs => slashesBehind t xs

/-- The text without its blanks, newlines and comments. -/
def Reading.significant (r : Reading) : List Char := r.items.flatMap Item.text

/-- A slash that begins no comment, if that is what the reading stops at. -/
def Reading.openSlash (r : Reading) : List (Option Char) :=
  match r.leftOpen with
  | some (.comment, _) => []
  | some (_, t) => if t.head? = some '/' then [r.significant.getLast?] else []
  | none => []

/-- For each slash of a text that begins no comment and is in no literal, the significant
character nearest before it, if there is one. -/
def Reading.slashes (r : Reading) : List (Option Char) :=
  slashesBehind [] r.lexemes ++ r.openSlash

/-- Those of the characters before slashes that make the slash open a regular expression. -/
def regexOpeners (slashes : List (Option Char)) : List Char :=
  slashes.filterMap (Option.filter CharClass.introducesRegex)

theorem regexOpeners_append (xs ys : List (Option Char)) :
    regexOpeners (xs ++ ys) = regexOpeners xs ++ regexOpeners ys :=
  List.filterMap_append

theorem regexOpeners_singleton (before : Option Char) :
    regexOpeners [before] =
      if before.any CharClass.introducesRegex then before.toList else [] := by
  cases before with
  | none => rfl
  | some ch =>
    rw [regexOpeners, List.filterMap_cons, Option.filter_some, Option.any_some]
    cases CharClass.introducesRegex ch <;> rfl

-- An item that fits has an opener before it exactly if it is a slash with an opener before it.
theorem Item.regexOpeners_eq_opener {before : Option Char} {i : Item} (h : i.Fits before) :
    regexOpeners (if i.first = '/' then [before] else []) = i.opener before := by
  cases i with
  | string quote body =>
    have hne : quote ≠ '/' := (CharClass.ne_of_isQuote h.1).1
    rw [show (Item.string quote body).first = quote from rfl, if_neg hne]
    rfl
  | regex body =>
    rw [show (Item.regex body).first = '/' from rfl, if_pos rfl, regexOpeners_singleton, h.1]
    rfl
  | mark ch =>
    show regexOpeners (if ch = '/' then [before] else []) = []
    by_cases hslash : ch = '/'
    · rw [if_pos hslash, regexOpeners_singleton, h.2.2 hslash]
      rfl
    · rw [if_neg hslash]
      rfl

theorem Reading.introducers_cons (before : Option Char) (i : Item) (is : List Item) :
    introducers before (i :: is) = i.opener before ++ introducers (some i.last) is := by
  cases i <;> rfl

-- Every regular expression is found at its slash, and no other slash is one.
theorem Lexeme.regexOpeners_slashesBehind {t : List Char} {xs : List Lexeme}
    (h : Fit t.getLast? xs) : regexOpeners (slashesBehind t xs) =
      Reading.introducers t.getLast? (xs.filterMap item?) := by
  induction xs generalizing t with
  | nil => rfl
  | cons x xs ih =>
    cases x with
    | item i =>
      obtain ⟨hfits, hfit⟩ := fit_item.mp h
      rw [slashesBehind, regexOpeners_append, Item.regexOpeners_eq_opener hfits, filterMap_item,
        Reading.introducers_cons, ih (by rwa [Item.getLast?_append_text]),
        Item.getLast?_append_text]
    | blank ch => exact ih (fit_of_item?_eq_none rfl h)
    | newline => exact ih (fit_of_item?_eq_none rfl h)
    | lineComment body => exact ih (fit_of_item?_eq_none rfl h)
    | blockComment body => exact ih (fit_of_item?_eq_none rfl h)

namespace Reading

theorem getLast?_significant (r : Reading) :
    r.significant.getLast? = r.items.getLast?.map Item.last := by
  rcases r.items.eq_nil_or_concat with hnil | ⟨is, i, hconcat⟩
  · rw [significant, hnil]
    rfl
  · rw [significant, hconcat, List.concat_eq_append, List.flatMap_append, List.flatMap_singleton,
      Item.getLast?_append_text, List.getLast?_concat]
    rfl

-- A regular expression that is left open has an opener before its slash.
theorem openSlash_of_regex {text : String} {t : List Char}
    (h : (ofText text).leftOpen = some (.regex, t)) :
    ∃ c, (ofText text).openSlash = [some c] ∧ (ofText text).significant.getLast? = some c ∧
      CharClass.introducesRegex c = true := by
  obtain ⟨u, rfl, -, hintroduces, -⟩ := leftOpen_read h
  have hlast : (ofText text).significant.getLast? = (ofText text).lastBehind none := by
    rw [getLast?_significant, lastBehind, Option.or_none]
  obtain ⟨c, hc, hopener⟩ := (Option.any_eq_true _ _).mp hintroduces
  refine ⟨c, ?_, hlast.trans hc, hopener⟩
  have hslash : ('/' :: u).head? = some '/' := rfl
  rw [openSlash, h]
  simp only [if_pos hslash]
  rw [hlast]
  exact congrArg (fun x => [x]) hc

theorem regexOpeners_openSlash (text : String) :
    regexOpeners (ofText text).openSlash =
      match (ofText text).leftOpen with
      | some (.regex, _) => ((ofText text).items.getLast?.map Item.last).toList
      | _ => [] := by
  cases hopen : (ofText text).leftOpen with
  | none => rw [openSlash, hopen]; rfl
  | some p =>
    obtain ⟨k, t⟩ := p
    cases k with
    | comment => rw [openSlash, hopen]; rfl
    | string =>
      obtain ⟨quote, u, rfl, hquote, -⟩ := leftOpen_read hopen
      have hne : ¬ (quote :: u).head? = some '/' :=
        fun h => (CharClass.ne_of_isQuote hquote).1 (Option.some.inj h)
      rw [openSlash, hopen]
      simp only [if_neg hne]
      rfl
    | regex =>
      obtain ⟨c, hslash, hlast, hopener⟩ := openSlash_of_regex hopen
      rw [getLast?_significant] at hlast
      rw [hslash, hlast, regexOpeners_singleton, Option.any_some, hopener]
      rfl

-- The openers of a reading are told from its slashes.
theorem regexOpeners_slashes (text : String) :
    regexOpeners (ofText text).slashes = (ofText text).openers := by
  have hbehind := @Lexeme.regexOpeners_slashesBehind [] (ofText text).lexemes (fit_read none _)
  rw [slashes, regexOpeners_append, regexOpeners_openSlash, openers, hbehind]
  rfl

end Reading

/-! ## 2. Records -/

/-- What is recorded last of a run over `text` with the given result. -/
def Record.ofResult (text : String) : Except Fault String → Record
  | .ok out => .minified text.utf8ByteSize out.utf8ByteSize
  | .error fault => .aborted fault

theorem report_log (text : String) :
    (report text).log =
      (Reading.ofText text).records.push (.ofResult text (minify text)) := by
  rw [minify]
  cases hopen : (Reading.ofText text).leftOpen with
  | none =>
    rw [report_of_closed hopen]
    rfl
  | some p =>
    rw [report_of_leftOpen hopen]
    rfl

/-- The log names exactly the slashes that open a regular expression, each by the significant
character nearest before it, in the order of the text, the one of a literal that is left open
being the last. Then comes one record of the result. -/
theorem log_eq (text : String) :
    (report text).log.toList =
        (regexOpeners (Reading.ofText text).slashes).map Record.regexAfter ++
          [Record.ofResult text (minify text)] ∧
      (report text).log.toList.map Record.level =
        List.replicate (regexOpeners (Reading.ofText text).slashes).length .trace ++ [.debug] ∧
      ∀ fault, minify text = .error fault → fault.construct = .regex →
        ∃ c, (Reading.ofText text).openSlash = [some c] ∧
          CharClass.introducesRegex c = true ∧
          ∃ records, (report text).log.toList = records ++ [.regexAfter c, .aborted fault] := by
  have hlog : (report text).log.toList =
      (regexOpeners (Reading.ofText text).slashes).map Record.regexAfter ++
        [Record.ofResult text (minify text)] := by
    rw [report_log, Array.toList_push, Reading.records, Reading.regexOpeners_slashes]
  refine ⟨hlog, ?_, ?_⟩
  · have hlast : (Record.ofResult text (minify text)).level = .debug := by
      cases minify text <;> rfl
    rw [hlog, List.map_append, List.map_map, List.map_singleton, hlast]
    exact congrArg (· ++ [Level.debug]) List.map_const'
  · intro fault hfault hregex
    cases hopen : (Reading.ofText text).leftOpen with
    | none =>
      rw [minify, report_of_closed hopen] at hfault
      cases hfault
    | some p =>
      obtain ⟨k, t⟩ := p
      rw [minify_of_leftOpen hopen] at hfault
      cases hfault
      obtain rfl : k = .regex := hregex
      obtain ⟨c, hslash, -, hopener⟩ := Reading.openSlash_of_regex hopen
      refine ⟨c, hslash, hopener, (regexOpeners
        (slashesBehind [] (Reading.ofText text).lexemes)).map .regexAfter, ?_⟩
      rw [hlog, minify_of_leftOpen hopen, Reading.slashes, hslash, regexOpeners_append,
        regexOpeners_singleton, Option.any_some, hopener, List.map_append, List.append_assoc]
      rfl

example : (Reading.ofText "a = /b/ / c, // d\n\t/e").slashes = [some '=', some '/', some ','] ∧
    (report "a = /b/ / c, // d\n\t/e").log.toList =
      [.regexAfter '=', .regexAfter ',', .aborted ⟨.regex, ⟨2, 2⟩⟩] := by
  decide +kernel

end ScriptMinifier
