import ScriptMinifier.Proofs.Words

/-!
The flags of regular expressions: the word that stands directly behind a closing slash. A slash
keeps no separator, so that a layout writes the next item there, whatever was between the two. A
literal has its own flags in the result exactly if that item was not a word set apart from it.
-/

namespace ScriptMinifier

/-! ## 1. Words at the beginning of a text -/

/-- The word that a text begins with, or nothing if it begins with none. -/
def wordAt (t : List Char) : List Char := t.takeWhile CharClass.isWord

theorem wordAt_cons {c : Char} (h : CharClass.isWord c = true) (t : List Char) :
    wordAt (c :: t) = c :: wordAt t :=
  List.takeWhile_cons_of_pos h

theorem wordAt_cons_of_not {c : Char} (h : CharClass.isWord c = false) (t : List Char) :
    wordAt (c :: t) = [] :=
  List.takeWhile_cons_of_neg (by simp [h])

-- No line break is a part of a word.
theorem wordAt_normalize (t : List Char) : wordAt (LineBreak.normalize t) = wordAt t := by
  fun_induction LineBreak.normalize t with
  | case1 => rfl
  | case2 t _ => rw [wordAt_cons_of_not (by decide), wordAt_cons_of_not (by decide)]
  | case3 t _ _ => rw [wordAt_cons_of_not (by decide), wordAt_cons_of_not (by decide)]
  | case4 c t _ _ ih =>
    by_cases hword : CharClass.isWord c = true
    · rw [wordAt_cons hword, wordAt_cons hword, ih]
    · rw [Bool.not_eq_true] at hword
      rw [wordAt_cons_of_not hword, wordAt_cons_of_not hword]

-- What separates items begins no word.
theorem Lexeme.wordAt_text {before : Option Char} {rest : List Char} {x : Lexeme}
    (h : x.Stands before rest) (hx : x.item? = none) : wordAt (x.text ++ rest) = [] := by
  cases x with
  | item i => cases hx
  | blank ch => exact wordAt_cons_of_not (CharClass.isWord_eq_false_of_le h.1) rest
  | newline => exact wordAt_cons_of_not (by decide) rest
  | lineComment body => exact wordAt_cons_of_not (by decide) _
  | blockComment body => exact wordAt_cons_of_not (by decide) _

theorem Item.wordAt_text {i : Item} (h : CharClass.isWord i.first = false) (t : List Char) :
    wordAt (i.text ++ t) = [] := by
  obtain ⟨u, hu⟩ := i.text_eq_first_cons
  rw [hu]
  exact wordAt_cons_of_not h _

-- The delimiters of literals are no word characters.
theorem Item.eq_mark_of_isWord {before : Option Char} {i : Item} (hfits : i.Fits before)
    (h : CharClass.isWord i.first = true) : i = .mark i.first := by
  cases i with
  | string quote body =>
    have hquote : CharClass.isWord quote = true := h
    rcases CharClass.isQuote_iff.mp hfits.1 with rfl | rfl <;> exact absurd hquote (by decide)
  | regex body => exact absurd (show CharClass.isWord '/' = true from h) (by decide)
  | mark ch => rfl

-- A word goes on behind a mark that is a part of it. Any other item ends it.
theorem Item.wordAt_text_congr {before : Option Char} {i : Item} (hfits : i.Fits before)
    {u v : List Char} (h : CharClass.isWord i.last = true → wordAt u = wordAt v) :
    wordAt (i.text ++ u) = wordAt (i.text ++ v) := by
  by_cases hword : CharClass.isWord i.first = true
  · rw [Item.eq_mark_of_isWord hfits hword] at h ⊢
    show wordAt (i.first :: u) = wordAt (i.first :: v)
    rw [wordAt_cons hword, wordAt_cons hword, h hword]
  · rw [Bool.not_eq_true] at hword
    rw [Item.wordAt_text hword, Item.wordAt_text hword]

/-! ## 2. Words at the beginning of a layout -/

-- A gap behind a word character is kept in front of a word.
theorem Layout.wordAt_write_of_gap {l : Char} (hl : CharClass.isWord l = true) {gap : Gap}
    (hgap : gap ≠ .none) (xs : List Lexeme) : wordAt (write (some l) gap xs) = [] := by
  induction xs generalizing gap with
  | nil => rfl
  | cons x xs ih =>
    cases hx : x.item? with
    | none =>
      rw [write_of_item?_eq_none hx]
      apply ih
      rcases Gap.join_eq gap x.gap with hjoin | ⟨hjoin, -⟩
      · intro hnone
        rw [hnone] at hjoin
        rw [← hjoin, Gap.join_none] at hnone
        exact hgap hnone
      · rwa [hjoin]
    | some i =>
      cases x <;> cases hx
      rw [write_item, Option.elim_some, List.append_assoc]
      rcases separator_eq_text l i.first gap with hkept | ⟨hdropped, hword⟩
      · rw [hkept]
        cases gap with
        | none => exact absurd rfl hgap
        | space => exact wordAt_cons_of_not (by decide) _
        | newline => exact wordAt_cons_of_not (by decide) _
      · rw [hdropped]
        exact Item.wordAt_text (hword.resolve_left (by simp [hl])) _

theorem Layout.reached_concat_item (before : Option Char) (gap : Gap) (xs : List Lexeme)
    (i : Item) : reached before gap (xs ++ [.item i]) = (some i.last, .none) := by
  fun_induction reached before gap xs with
  | case1 => rfl
  | case2 before gap j xs ih => exact ih
  | case3 before gap x xs hx ih =>
    cases x with
    | item j => exact absurd rfl (hx j)
    | blank ch => exact ih
    | newline => exact ih
    | lineComment body => exact ih
    | blockComment body => exact ih

namespace Reading

-- Behind a word character, a layout goes on with the word that the text goes on with.
theorem wordAt_write_read {before : Option Char} {t : List Char}
    (hopen : (read before t).leftOpen = none) {l : Char} (hl : CharClass.isWord l = true) :
    wordAt (Layout.write (some l) .none (read before t).lexemes) = wordAt t := by
  fun_induction read before t generalizing l with
  | case1 before t hnil =>
    rw [eq_nil_of_first? hnil]
    rfl
  | case2 => cases hopen
  | case3 before t x rest hfirst r ih =>
    obtain ⟨rfl, hstands⟩ := first?_eq_ok_iff.mp hfirst
    cases x with
    | item i =>
      rw [Layout.write_item, Layout.elim_separator_none, List.nil_append]
      exact Item.wordAt_text_congr hstands.1 (ih hopen)
    | blank ch =>
      rw [Lexeme.wordAt_text hstands rfl]
      exact Layout.wordAt_write_of_gap hl Gap.noConfusion r.lexemes
    | newline => exact Layout.wordAt_write_of_gap hl Gap.noConfusion r.lexemes
    | lineComment body =>
      -- The comment leaves no gap of its own, but the newline that ends it does.
      refine (ih hopen hl).trans ?_
      cases rest with
      | nil => rfl
      | cons c u =>
        obtain rfl := hstands.2 c rfl
        rfl
    | blockComment body => exact Layout.wordAt_write_of_gap hl Gap.noConfusion r.lexemes

end Reading

/-! ## 3. Words behind a slash -/

/-- A row of parts begins with something that separates, and the first item that comes behind it
begins with a word character. -/
def Lexeme.SetApart (xs : List Lexeme) : Prop :=
  xs.head?.any (·.item?.isNone) = true ∧
    (xs.findSome? Lexeme.item?).any (CharClass.isWord ·.first) = true

instance (xs : List Lexeme) : Decidable (Lexeme.SetApart xs) :=
  inferInstanceAs (Decidable (_ ∧ _))

-- With nothing before it, a layout begins with its first item.
theorem Layout.wordAt_write_eq_nil_iff (gap : Gap) (xs : List Lexeme) :
    wordAt (write none gap xs) = [] ↔
      (xs.findSome? Lexeme.item?).any (CharClass.isWord ·.first) = false := by
  induction xs generalizing gap with
  | nil => exact iff_of_true rfl rfl
  | cons x xs ih =>
    cases hx : x.item? with
    | none =>
      rw [write_of_item?_eq_none hx, List.findSome?_cons, hx]
      exact ih _
    | some i =>
      cases x <;> cases hx
      rw [write_item, Option.elim_none, List.nil_append]
      show wordAt (i.text ++ _) = [] ↔ CharClass.isWord i.first = false
      constructor
      · intro hnil
        by_contra hword
        rw [Bool.not_eq_false] at hword
        obtain ⟨u, hu⟩ := i.text_eq_first_cons
        rw [hu, List.cons_append, wordAt_cons hword] at hnil
        cases hnil
      · exact fun hword => Item.wordAt_text hword _

-- A slash keeps no separator.
theorem Layout.write_slash (xs : List Lexeme) :
    write (some '/') .none xs = write none .none xs := by
  induction xs with
  | nil => rfl
  | cons x xs ih =>
    cases hx : x.item? with
    | none =>
      rw [write_of_item?_eq_none hx, write_of_item?_eq_none hx, write_none _ .none, ← ih]
      exact write_of_dropped (by decide) (fun _ => by decide) xs
    | some i =>
      cases x <;> cases hx
      rw [write_item, write_item, elim_separator_none, elim_separator_none]

namespace Reading

-- Behind a slash, a layout goes on with the word that the text goes on with, unless the next word
-- is set apart from the slash.
theorem wordAt_write_slash_iff {before : Option Char} {t : List Char}
    (hopen : (read before t).leftOpen = none) :
    wordAt (Layout.write (some '/') .none (read before t).lexemes) = wordAt t ↔
      ¬ Lexeme.SetApart (read before t).lexemes := by
  rw [Layout.write_slash]
  fun_induction read before t with
  | case1 before t hnil =>
    rw [eq_nil_of_first? hnil]
    exact iff_of_true rfl (by simp [Lexeme.SetApart])
  | case2 => cases hopen
  | case3 before t x rest hfirst r _ =>
    obtain ⟨rfl, hstands⟩ := first?_eq_ok_iff.mp hfirst
    cases hx : x.item? with
    | none =>
      rw [Lexeme.wordAt_text hstands hx, Layout.wordAt_write_eq_nil_iff]
      simp [Lexeme.SetApart, hx]
    | some i =>
      cases x <;> cases hx
      refine iff_of_true ?_ (by simp [Lexeme.SetApart, Lexeme.item?])
      rw [Layout.write_item, Layout.elim_separator_none, List.nil_append]
      exact Item.wordAt_text_congr hstands.1 (wordAt_write_read hopen)

-- What is left of a row of parts is read from what is left of the text.
theorem exists_read_of_lexemes {before : Option Char} {t : List Char} {xs ys : List Lexeme}
    (h : (read before t).lexemes = xs ++ ys) :
    ∃ before' u, t = xs.flatMap Lexeme.text ++ u ∧
      read before' u = ⟨ys, (read before t).leftOpen⟩ := by
  induction xs generalizing before t with
  | nil => exact ⟨before, t, rfl, by rw [← show (read before t).lexemes = ys from h]⟩
  | cons x xs ih =>
    cases hfirst : first? before t with
    | none =>
      rw [eq_nil_of_first? hfirst, read_nil] at h
      cases h
    | some outcome =>
      cases outcome with
      | error k =>
        rw [read_of_first?_error hfirst] at h
        cases h
      | ok p =>
        obtain ⟨y, rest⟩ := p
        rw [read_of_first? hfirst] at h ⊢
        obtain ⟨rfl, hrest⟩ := List.cons.inj h
        obtain ⟨before', u, rfl, hread⟩ := ih hrest
        refine ⟨before', u, ?_, hread⟩
        rw [List.flatMap_cons, List.append_assoc]
        exact eq_text_append_of_first? hfirst

end Reading

/-! ## 4. The flags of a result -/

/-- The run over `s` recognises the regular expression of the given body, behind the parts `xs`
and before the parts `ys`. What stands behind its closing slash is `inText` in the text and
`inResult` in the result `o`. -/
structure Run.ClosesRegex (s o : String) (xs : List Lexeme) (body : List Char) (ys : List Lexeme)
    (inText inResult : List Char) : Prop where
  parts : transcript s = xs ++ .item (.regex body) :: ys
  text : ∃ front, s.toList = front ++ inText ∧
    LineBreak.normalize front = (xs ++ [Lexeme.item (.regex body)]).flatMap Lexeme.text
  result : o.toList =
    Layout.write none .none (xs ++ [.item (.regex body)]) ++ inResult

/-- Every regular expression has its own flags in the result `o` of a text: the word behind its
closing slash is the one that stands there in the text. -/
def KeepsFlags (s o : String) : Prop :=
  ∀ xs body ys inText inResult, Run.ClosesRegex s o xs body ys inText inResult →
    wordAt inResult = wordAt inText

namespace Run.ClosesRegex

variable {s o : String} {xs ys : List Lexeme} {body inText inResult : List Char}

-- The slash is one character, so that the text behind it is normalised for itself.
theorem normalize_text {front : List Char} (htext : s.toList = front ++ inText)
    (hfront : LineBreak.normalize front =
      (xs ++ [Lexeme.item (.regex body)]).flatMap Lexeme.text) :
    LineBreak.normalize s.toList =
      (xs ++ [Lexeme.item (.regex body)]).flatMap Lexeme.text ++ LineBreak.normalize inText := by
  have hlast : front.getLast? ≠ some '\r' := by
    intro hreturn
    have hnewline := LineBreak.getLast?_normalize_of_return hreturn
    rw [hfront, List.flatMap_append, List.flatMap_singleton] at hnewline
    cases hnewline.symm.trans (Item.getLast?_append_text _ (.regex body))
  rw [htext, LineBreak.normalize_append (.inl hlast), hfront]

theorem exists_read (h : minify s = .ok o) (hregex : ClosesRegex s o xs body ys inText inResult) :
    ∃ before, Reading.read before (LineBreak.normalize inText) = ⟨ys, none⟩ := by
  obtain ⟨front, htext, hfront⟩ := hregex.text
  have hparts := hregex.parts
  rw [transcript_eq h, List.append_cons] at hparts
  obtain ⟨before, u, hunread, hread⟩ := Reading.exists_read_of_lexemes hparts
  rw [normalize_text htext hfront] at hunread
  refine ⟨before, ?_⟩
  rw [List.append_cancel_left hunread, hread]
  exact congrArg (Reading.mk ys) (minify_eq_ok_iff.mp h).1

theorem inResult_eq (h : minify s = .ok o) (hregex : ClosesRegex s o xs body ys inText inResult) :
    inResult = Layout.write (some '/') .none ys := by
  obtain ⟨-, rfl⟩ := minify_eq_ok_iff.mp h
  have hresult := hregex.result
  rw [Layout.compact, String.toList_ofList, ← transcript_eq h, hregex.parts, List.append_cons,
    Layout.write_append, Layout.reached_concat_item] at hresult
  exact (List.append_cancel_left hresult).symm

-- The flags of one regular expression.
theorem wordAt_eq_iff (h : minify s = .ok o)
    (hregex : ClosesRegex s o xs body ys inText inResult) :
    wordAt inResult = wordAt inText ↔ ¬ Lexeme.SetApart ys := by
  obtain ⟨before, hread⟩ := hregex.exists_read h
  have hiff := @Reading.wordAt_write_slash_iff before (LineBreak.normalize inText) (by rw [hread])
  rwa [hread, wordAt_normalize, ← hregex.inResult_eq h] at hiff

-- Wherever a regular expression is recognised, it has a closing slash in the text and in the
-- result.
theorem exists_of_transcript (h : minify s = .ok o)
    (hparts : transcript s = xs ++ .item (.regex body) :: ys) :
    ∃ inText inResult, ClosesRegex s o xs body ys inText inResult := by
  obtain ⟨hopen, rfl⟩ := minify_eq_ok_iff.mp h
  have hsplit := hparts
  rw [transcript_eq h, List.append_cons] at hsplit
  have hspell := Reading.flatMap_text_of_closed hopen
  rw [hsplit, List.flatMap_append] at hspell
  obtain ⟨front, rest, htext, hfront, -⟩ := LineBreak.exists_append_of_normalize hspell.symm
  have hresult := Layout.write_append none .none (xs ++ [.item (.regex body)]) ys
  rw [← hsplit, ← String.toList_ofList (l := Layout.write none .none (Reading.ofText s).lexemes)]
    at hresult
  exact ⟨rest, _, hparts, ⟨front, htext, hfront⟩, hresult⟩

end Run.ClosesRegex

/-- Regular expressions keep their flags, and get no others, exactly if none of them is followed
by a word that is set apart from it. A slash keeps no line break behind it, whether it divides or
closes a literal. -/
theorem keepsFlags_iff {s o : String} (h : minify s = .ok o) :
    KeepsFlags s o ↔
      ∀ xs body ys, Run.transcript s = xs ++ .item (.regex body) :: ys → ¬ Lexeme.SetApart ys := by
  constructor
  · intro hkeeps xs body ys hparts
    obtain ⟨inText, inResult, hregex⟩ := Run.ClosesRegex.exists_of_transcript h hparts
    exact (hregex.wordAt_eq_iff h).mp (hkeeps xs body ys inText inResult hregex)
  · intro hnot xs body ys inText inResult hregex
    exact (hregex.wordAt_eq_iff h).mpr (hnot xs body ys hregex.parts)

theorem keepsFlags_glued :
    minify "x = /a/gi, /b/ // c\n;" = .ok "x=/a/gi,/b/;" ∧
      KeepsFlags "x = /a/gi, /b/ // c\n;" "x=/a/gi,/b/;" := by
  have h : minify "x = /a/gi, /b/ // c\n;" = .ok "x=/a/gi,/b/;" := by
    rw [minify_eq_ok_iff]
    decide +kernel
  refine ⟨h, (keepsFlags_iff h).mpr ?_⟩
  intro xs body ys hparts
  rw [Run.transcript_eq h, List.append_cons] at hparts
  -- In this text no separator at all comes before a word.
  have hall : ∀ k < 16, ¬ Lexeme.SetApart
      ((Reading.ofText "x = /a/gi, /b/ // c\n;").lexemes.drop k) := by
    decide +kernel
  have hlength : (Reading.ofText "x = /a/gi, /b/ // c\n;").lexemes.length < 16 := by
    decide +kernel
  have hrest := hall (xs ++ [Lexeme.item (.regex body)]).length (by
    rw [hparts, List.length_append] at hlength
    omega)
  rwa [hparts, List.drop_left] at hrest

theorem not_keepsFlags_newline :
    minify "x = /a/\ng()" = .ok "x=/a/g()" ∧ ¬ KeepsFlags "x = /a/\ng()" "x=/a/g()" := by
  have h : minify "x = /a/\ng()" = .ok "x=/a/g()" := by
    rw [minify_eq_ok_iff]
    decide +kernel
  refine ⟨h, ?_⟩
  intro hkeeps
  have hregex : Run.ClosesRegex "x = /a/\ng()" "x=/a/g()"
      [.item (.mark 'x'), .blank ' ', .item (.mark '='), .blank ' '] ['a']
      [.newline, .item (.mark 'g'), .item (.mark '('), .item (.mark ')')]
      ['\n', 'g', '(', ')'] ['g', '(', ')'] := by
    refine ⟨?_, ⟨['x', ' ', '=', ' ', '/', 'a', '/'], by decide, by decide⟩, by decide⟩
    rw [Run.transcript_eq h]
    decide +kernel
  exact absurd (hkeeps _ _ _ _ _ hregex) (by decide)

end ScriptMinifier
