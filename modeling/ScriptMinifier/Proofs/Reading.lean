import ScriptMinifier.Proofs.CharClass
import ScriptMinifier.Proofs.Closing
import ScriptMinifier.Reading

/-!
Readings, part by part. An item that fits behind the item before it is read again wherever its
text stands there, unless it is a slash and the text goes on as a comment does.
-/

namespace ScriptMinifier

/-! ## 1. Items in their place -/

/-- The items that can be read behind an item ending in `before`. -/
def Item.Fits (before : Option Char) : Item → Prop
  | .string quote body => CharClass.isQuote quote = true ∧ Literal.Body quote body
  | .regex body => before.any CharClass.introducesRegex = true ∧ Literal.Body '/' body ∧
      body ≠ [] ∧ body.head? ≠ some '*'
  | .mark ch => ' ' < ch ∧ CharClass.isQuote ch = false ∧
      (ch = '/' → before.any CharClass.introducesRegex = false)

/-- Every item of a row fits behind the item before it. -/
def Lexeme.Fit (before : Option Char) : List Lexeme → Prop
  | [] => True
  | x :: xs => (∀ i, x = .item i → i.Fits before) ∧ Lexeme.Fit (Reading.behind before x) xs

/-- The parts that can be read behind an item ending in `before` where the text goes on as
`rest`. -/
def Lexeme.Stands (before : Option Char) (rest : List Char) : Lexeme → Prop
  | .item i => i.Fits before ∧ (i = .mark '/' → ¬ Comment.Opens ('/' :: rest))
  | .blank ch => ch ≤ ' ' ∧ ch ≠ '\n'
  | .newline => True
  | .lineComment body => '\n' ∉ body ∧ ∀ ch ∈ rest.head?, ch = '\n'
  | .blockComment body => Comment.Body body

theorem Lexeme.filterMap_item (i : Item) (xs : List Lexeme) :
    (Lexeme.item i :: xs).filterMap Lexeme.item? = i :: xs.filterMap Lexeme.item? := rfl

theorem Lexeme.mem_of_item? {i : Item} {xs : List Lexeme} (h : i ∈ xs.filterMap Lexeme.item?) :
    .item i ∈ xs := by
  obtain ⟨x, hx, hitem⟩ := List.mem_filterMap.mp h
  cases x with
  | item j =>
    cases hitem
    exact hx
  | blank => cases hitem
  | newline => cases hitem
  | lineComment => cases hitem
  | blockComment => cases hitem

theorem Lexeme.fit_item {before : Option Char} {i : Item} {xs : List Lexeme} :
    Lexeme.Fit before (.item i :: xs) ↔ i.Fits before ∧ Lexeme.Fit (some i.last) xs := by
  constructor
  · exact fun h => ⟨h.1 i rfl, h.2⟩
  · rintro ⟨hfits, hfit⟩
    refine ⟨?_, hfit⟩
    rintro j hj
    cases hj
    exact hfits

theorem Lexeme.Fit.exists_fits {before : Option Char} {xs : List Lexeme} (h : Lexeme.Fit before xs)
    {i : Item} (hi : .item i ∈ xs) : ∃ before, i.Fits before := by
  induction xs generalizing before with
  | nil => cases hi
  | cons x xs ih =>
    rcases List.mem_cons.mp hi with hx | hxs
    · exact ⟨before, h.1 i hx.symm⟩
    · exact ih h.2 hxs

theorem Lexeme.fit_of_item?_eq_none {x : Lexeme} (hx : x.item? = none) {before : Option Char}
    {xs : List Lexeme} (h : Lexeme.Fit before (x :: xs)) : Lexeme.Fit before xs := by
  have hbehind : Reading.behind before x = before := by cases x <;> first | rfl | cases hx
  rw [← hbehind]
  exact h.2

theorem Lexeme.text_ne_nil (x : Lexeme) : x.text ≠ [] := by
  cases x with
  | item i => cases i <;> exact List.cons_ne_nil _ _
  | blank => exact List.cons_ne_nil _ _
  | newline => exact List.cons_ne_nil _ _
  | lineComment => exact List.cons_ne_nil _ _
  | blockComment => exact List.cons_ne_nil _ _

theorem Item.getLast?_text (i : Item) : i.text.getLast? = some i.last := by
  cases i with
  | string quote body =>
    show ((quote :: body) ++ [quote]).getLast? = some quote
    exact List.getLast?_concat
  | regex body =>
    show (('/' :: body) ++ ['/']).getLast? = some '/'
    exact List.getLast?_concat
  | mark ch => rfl

theorem Item.getLast?_append_text (t : List Char) (i : Item) :
    (t ++ i.text).getLast? = some i.last := by
  rw [List.getLast?_append, Item.getLast?_text]
  rfl

namespace Reading

/-- The reading that takes a part off first. -/
def prepend (x : Lexeme) (r : Reading) : Reading := ⟨x :: r.lexemes, r.leftOpen⟩

/-! ## 2. The first part -/

theorem eq_nil_of_first? {before : Option Char} {t : List Char} (h : first? before t = none) :
    t = [] := by
  unfold first? at h
  split at h <;> first | rfl | cases h

theorem first?_of_not_opens {before : Option Char} {ch : Char} {t : List Char}
    (h : ¬ Comment.Opens (ch :: t)) :
    first? before (ch :: t) = some
      (if CharClass.isQuote ch then
        match Literal.split? ch t with
        | some (body, rest) => .ok (.item (.string ch body), rest)
        | none => .error .string
      else if ch = '/' ∧ before.any CharClass.introducesRegex then
        match Literal.split? '/' t with
        | some (body, rest) => .ok (.item (.regex body), rest)
        | none => .error .regex
      else if ch = '\n' then .ok (.newline, t)
      else if ch ≤ ' ' then .ok (.blank ch, t)
      else .ok (.item (.mark ch), t)) := by
  apply first?.eq_4
  · rintro u rfl rfl
    exact h (.inl ⟨u, rfl⟩)
  · rintro u rfl rfl
    exact h (.inr ⟨u, rfl⟩)

theorem first?_string {before : Option Char} {quote : Char} {t body rest : List Char}
    (hquote : CharClass.isQuote quote = true) (h : Literal.split? quote t = some (body, rest)) :
    first? before (quote :: t) = some (.ok (.item (.string quote body), rest)) := by
  have hslash := (CharClass.ne_of_isQuote hquote).1
  rw [first?_of_not_opens (Comment.not_opens_of_ne hslash t), if_pos hquote, h]

theorem first?_unclosedString {before : Option Char} {quote : Char} {t : List Char}
    (hquote : CharClass.isQuote quote = true) (h : Literal.split? quote t = none) :
    first? before (quote :: t) = some (.error .string) := by
  have hslash := (CharClass.ne_of_isQuote hquote).1
  rw [first?_of_not_opens (Comment.not_opens_of_ne hslash t), if_pos hquote, h]

theorem first?_regex {before : Option Char} {t body rest : List Char}
    (hopens : ¬ Comment.Opens ('/' :: t)) (hbefore : before.any CharClass.introducesRegex = true)
    (h : Literal.split? '/' t = some (body, rest)) :
    first? before ('/' :: t) = some (.ok (.item (.regex body), rest)) := by
  rw [first?_of_not_opens hopens, if_neg (by decide), if_pos ⟨rfl, hbefore⟩, h]

theorem first?_unclosedRegex {before : Option Char} {t : List Char}
    (hopens : ¬ Comment.Opens ('/' :: t)) (hbefore : before.any CharClass.introducesRegex = true)
    (h : Literal.split? '/' t = none) : first? before ('/' :: t) = some (.error .regex) := by
  rw [first?_of_not_opens hopens, if_neg (by decide), if_pos ⟨rfl, hbefore⟩, h]

-- A text that begins with a comment is read as one.
theorem not_opens_of_first? {before : Option Char} {t rest : List Char} {x : Lexeme}
    (h : first? before t = some (.ok (x, rest))) (hx : x.isComment = false) :
    ¬ Comment.Opens t := by
  rintro (⟨u, rfl⟩ | ⟨u, rfl⟩)
  · cases h
    cases hx
  · simp only [first?, List.cons_append, List.nil_append] at h
    split at h
    · cases h
      cases hx
    · cases h

-- What is read as an item fits in its place.
theorem fits_of_first? {before : Option Char} {t rest : List Char} {i : Item}
    (h : first? before t = some (.ok (.item i, rest))) : i.Fits before := by
  have hopens := not_opens_of_first? h rfl
  cases t with
  | nil => cases h
  | cons ch t =>
    rw [first?_of_not_opens hopens] at h
    by_cases hquote : CharClass.isQuote ch = true
    · rw [if_pos hquote] at h
      cases hsplit : Literal.split? ch t with
      | none =>
        rw [hsplit] at h
        cases h
      | some p =>
        rw [hsplit] at h
        cases h
        exact ⟨hquote, Literal.body_of_split? hsplit⟩
    rw [if_neg hquote] at h
    by_cases hregex : ch = '/' ∧ before.any CharClass.introducesRegex = true
    · rw [if_pos hregex] at h
      obtain ⟨rfl, hintroduces⟩ := hregex
      cases hsplit : Literal.split? '/' t with
      | none =>
        rw [hsplit] at h
        cases h
      | some p =>
        rw [hsplit] at h
        cases h
        rw [Literal.eq_append_of_split? hsplit] at hopens
        refine ⟨hintroduces, Literal.body_of_split? hsplit, ?_, ?_⟩
        -- A body that is empty or begins with a star would have opened a comment.
        · intro hnil
          rw [hnil] at hopens
          exact hopens (.inl ⟨_, rfl⟩)
        · intro hstar
          obtain ⟨b, hb⟩ := List.head?_eq_some_iff.mp hstar
          rw [hb] at hopens
          exact hopens (.inr ⟨_, rfl⟩)
    rw [if_neg hregex] at h
    by_cases hnewline : ch = '\n'
    · rw [if_pos hnewline] at h
      cases h
    rw [if_neg hnewline] at h
    by_cases hspace : ch ≤ ' '
    · rw [if_pos hspace] at h
      cases h
    rw [if_neg hspace] at h
    cases h
    refine ⟨Char.not_le.mp hspace, by simpa using hquote, ?_⟩
    intro hslash
    simpa [hslash] using hregex

-- A visible character that opens no comment begins an item, or a literal that is left open.
theorem first?_of_visible {before : Option Char} {ch : Char} {t : List Char} (hch : ' ' < ch)
    (hopens : ¬ Comment.Opens (ch :: t)) :
    (∃ k, first? before (ch :: t) = some (.error k)) ∨
      ∃ i rest, first? before (ch :: t) = some (.ok (.item i, rest)) ∧ i.first = ch := by
  rw [first?_of_not_opens hopens]
  by_cases hquote : CharClass.isQuote ch = true
  · rw [if_pos hquote]
    cases Literal.split? ch t with
    | none => exact .inl ⟨_, rfl⟩
    | some p => exact .inr ⟨_, _, rfl, rfl⟩
  rw [if_neg hquote]
  by_cases hregex : ch = '/' ∧ before.any CharClass.introducesRegex = true
  · rw [if_pos hregex]
    cases Literal.split? '/' t with
    | none => exact .inl ⟨_, rfl⟩
    | some p => exact .inr ⟨_, _, rfl, hregex.1.symm⟩
  have hnewline : ch ≠ '\n' := by
    rintro rfl
    exact absurd hch (by decide)
  rw [if_neg hregex, if_neg hnewline, if_neg (Char.not_le.mpr hch)]
  exact .inr ⟨_, _, rfl, rfl⟩

-- An item that fits is read from its text, whatever comes behind it. Only a slash has to stand
-- apart from what would make a comment of it.
theorem first?_of_fits {before : Option Char} {i : Item} {rest : List Char}
    (h : i.Fits before) (hslash : i = .mark '/' → ¬ Comment.Opens ('/' :: rest)) :
    first? before (i.text ++ rest) = some (.ok (.item i, rest)) := by
  cases i with
  | string quote body =>
    obtain ⟨hquote, hbody⟩ := h
    rw [show (Item.string quote body).text ++ rest = quote :: (body ++ quote :: rest) by
      simp [Item.text]]
    exact first?_string hquote (Literal.split?_of_body (CharClass.ne_of_isQuote hquote).2.1 hbody _)
  | regex body =>
    obtain ⟨hintroduces, hbody, hne, hstar⟩ := h
    have hopens : ¬ Comment.Opens ('/' :: (body ++ '/' :: rest)) := by
      cases hbody with
      | nil => exact absurd rfl hne
      | plain hclose _ _ _ =>
        rw [List.cons_append, Comment.opens_cons_cons_iff]
        rintro ⟨-, rfl | rfl⟩
        · exact hclose rfl
        · exact hstar rfl
      | escape ch _ =>
        rw [List.cons_append, Comment.opens_cons_cons_iff]
        decide
    rw [show (Item.regex body).text ++ rest = '/' :: (body ++ '/' :: rest) by simp [Item.text]]
    exact first?_regex hopens hintroduces (Literal.split?_of_body (by decide) hbody _)
  | mark ch =>
    obtain ⟨hprintable, hquote, hdivides⟩ := h
    have hopens : ¬ Comment.Opens (ch :: rest) := by
      by_cases hch : ch = '/'
      · subst hch
        exact hslash rfl
      · exact Comment.not_opens_of_ne hch rest
    have hregex : ¬ (ch = '/' ∧ before.any CharClass.introducesRegex = true) := by
      rintro ⟨hch, hintroduces⟩
      rw [hdivides hch] at hintroduces
      cases hintroduces
    have hnewline : ch ≠ '\n' := by
      rintro rfl
      exact absurd hprintable (by decide)
    rw [show (Item.mark ch).text ++ rest = ch :: rest from rfl]
    rw [first?_of_not_opens hopens, if_neg (by simp [hquote]), if_neg hregex, if_neg hnewline,
      if_neg (Char.not_le.mpr hprintable)]

theorem stands_of_first? {before : Option Char} {t rest : List Char} {x : Lexeme}
    (h : first? before t = some (.ok (x, rest))) : x.Stands before rest := by
  have htext := eq_text_append_of_first? h
  cases x with
  | item i =>
    refine ⟨fits_of_first? h, ?_⟩
    rintro rfl
    rw [htext] at h
    exact not_opens_of_first? h rfl
  | blank ch =>
    have hopens := not_opens_of_first? h rfl
    rw [htext] at h hopens
    change first? before (ch :: rest) = _ at h
    change ¬ Comment.Opens (ch :: rest) at hopens
    rw [first?_of_not_opens hopens] at h
    split at h
    · split at h <;> cases h
    split at h
    · split at h <;> cases h
    split at h
    · cases h
    rename_i hnewline
    split at h
    · rename_i hspace
      exact ⟨hspace, hnewline⟩
    · cases h
  | newline => trivial
  | lineComment body =>
    rw [htext] at h
    change some (Except.ok (Lexeme.lineComment ((body ++ rest).takeWhile (· ≠ '\n')),
      (body ++ rest).dropWhile (· ≠ '\n'))) = _ at h
    simp only [Option.some.injEq, Except.ok.injEq, Prod.mk.injEq, Lexeme.lineComment.injEq] at h
    constructor
    · intro hmem
      rw [← h.1] at hmem
      simpa using List.all_eq_true.mp List.all_takeWhile _ hmem
    · intro ch hch
      have hnot := List.head?_dropWhile_not (· ≠ '\n') (body ++ rest)
      rw [h.2, Option.mem_def.mp hch] at hnot
      simpa using hnot
  | blockComment body =>
    rw [htext] at h
    simp only [first?, Lexeme.text, List.cons_append] at h
    split at h
    · rename_i hsplit
      cases h
      exact Comment.body_of_splitBlock? hsplit
    · cases h

theorem first?_of_stands {before : Option Char} {rest : List Char} {x : Lexeme}
    (h : x.Stands before rest) : first? before (x.text ++ rest) = some (.ok (x, rest)) := by
  cases x with
  | item i => exact first?_of_fits h.1 h.2
  | blank ch =>
    obtain ⟨hspace, hnewline⟩ := h
    have hslash : ch ≠ '/' := by
      rintro rfl
      exact absurd hspace (by decide)
    have hquote := CharClass.isQuote_eq_false_of_le hspace
    show first? before (ch :: rest) = _
    rw [first?_of_not_opens (Comment.not_opens_of_ne hslash rest), if_neg (by simp [hquote]),
      if_neg (by simp [hslash]), if_neg hnewline, if_pos hspace]
  | newline =>
    show first? before ('\n' :: rest) = _
    rw [first?_of_not_opens (Comment.not_opens_of_ne (by decide) rest)]
    rfl
  | lineComment body =>
    obtain ⟨hbody, hrest⟩ := h
    have hall : ∀ ch ∈ body, decide (ch ≠ '\n') = true := by
      intro ch hch
      apply decide_eq_true
      rintro rfl
      exact hbody hch
    have hnone : rest.takeWhile (· ≠ '\n') = [] ∧ rest.dropWhile (· ≠ '\n') = rest := by
      cases rest with
      | nil => exact ⟨rfl, rfl⟩
      | cons a u =>
        obtain rfl := hrest a rfl
        exact ⟨rfl, rfl⟩
    show some (Except.ok (Lexeme.lineComment ((body ++ rest).takeWhile (· ≠ '\n')),
      (body ++ rest).dropWhile (· ≠ '\n'))) = _
    rw [List.takeWhile_append_of_pos hall, List.dropWhile_append_of_pos hall, hnone.1, hnone.2,
      List.append_nil]
  | blockComment body =>
    have hsplit := Comment.splitBlock?_of_body h rest
    rw [show (Lexeme.blockComment body).text ++ rest = '/' :: '*' :: (body ++ '*' :: '/' :: rest) by
      simp [Lexeme.text]]
    simp only [first?, hsplit]

-- What a text begins with is said by the part, the character before it and the text behind it.
theorem first?_eq_ok_iff {before : Option Char} {t rest : List Char} {x : Lexeme} :
    first? before t = some (.ok (x, rest)) ↔ t = x.text ++ rest ∧ x.Stands before rest := by
  constructor
  · exact fun h => ⟨eq_text_append_of_first? h, stands_of_first? h⟩
  · rintro ⟨rfl, h⟩
    exact first?_of_stands h

/-! ## 3. Whole readings -/

theorem read_nil (before : Option Char) : read before [] = ⟨[], none⟩ := by
  rw [read]
  rfl

theorem read_of_first? {before : Option Char} {t rest : List Char} {x : Lexeme}
    (h : first? before t = some (.ok (x, rest))) :
    read before t = (read (behind before x) rest).prepend x := by
  rw [read]
  split
  · rename_i hnone
    rw [h] at hnone
    cases hnone
  · rename_i k herror
    rw [h] at herror
    cases herror
  · rename_i y u hok
    rw [h] at hok
    cases hok
    rfl

theorem read_of_first?_error {before : Option Char} {t : List Char} {k : Construct}
    (h : first? before t = some (.error k)) : read before t = ⟨[], some (k, t)⟩ := by
  rw [read]
  split
  · rename_i hnone
    rw [h] at hnone
    cases hnone
  · rename_i l herror
    rw [h] at herror
    cases herror
    rfl
  · rename_i y u hok
    rw [h] at hok
    cases hok

-- A part that stands where it is read is taken off first.
theorem read_of_stands {before : Option Char} {rest : List Char} {x : Lexeme}
    (h : x.Stands before rest) :
    read before (x.text ++ rest) = (read (behind before x) rest).prepend x :=
  read_of_first? (first?_of_stands h)

theorem read_blank {before : Option Char} {ch : Char} {t : List Char} (hspace : ch ≤ ' ')
    (hnewline : ch ≠ '\n') : read before (ch :: t) = (read before t).prepend (.blank ch) :=
  read_of_stands (x := .blank ch) ⟨hspace, hnewline⟩

theorem read_newline (before : Option Char) (t : List Char) :
    read before ('\n' :: t) = (read before t).prepend .newline :=
  read_of_stands (x := .newline) trivial

theorem read_lineComment (before : Option Char) (t : List Char) :
    read before ('/' :: '/' :: t) =
      (read before (t.dropWhile (· ≠ '\n'))).prepend (.lineComment (t.takeWhile (· ≠ '\n'))) :=
  read_of_first? rfl

theorem read_blockComment {before : Option Char} {t body rest : List Char}
    (h : Comment.splitBlock? t = some (body, rest)) :
    read before ('/' :: '*' :: t) = (read before rest).prepend (.blockComment body) := by
  apply read_of_first?
  simp [first?, h]

theorem read_unclosedComment {before : Option Char} {t : List Char}
    (h : Comment.splitBlock? t = none) :
    read before ('/' :: '*' :: t) = ⟨[], some (.comment, '/' :: '*' :: t)⟩ := by
  apply read_of_first?_error
  simp [first?, h]

theorem read_item {before : Option Char} {i : Item} {rest : List Char} (h : i.Fits before)
    (hslash : i = .mark '/' → ¬ Comment.Opens ('/' :: rest)) :
    read before (i.text ++ rest) = (read (some i.last) rest).prepend (.item i) :=
  read_of_first? (first?_of_fits h hslash)

-- A character that opens neither a literal nor a comment is an item behind any other.
theorem read_mark {ch : Char} (hvisible : ' ' < ch) (hquote : CharClass.isQuote ch = false)
    (hslash : ch ≠ '/') (before : Option Char) (t : List Char) :
    read before (ch :: t) = (read (some ch) t).prepend (.item (.mark ch)) := by
  apply read_item (i := .mark ch) ⟨hvisible, hquote, fun h => absurd h hslash⟩
  intro h
  exact absurd (Item.mark.inj h) hslash

-- The parts of a reading spell the text up to what is left open.
theorem flatMap_text_read (before : Option Char) (t : List Char) :
    (read before t).lexemes.flatMap Lexeme.text ++
      ((read before t).leftOpen.map Prod.snd).getD [] = t := by
  fun_induction read before t with
  | case1 before t h =>
    rw [eq_nil_of_first? h]
    rfl
  | case2 before t k h => rfl
  | case3 before t x rest h r ih =>
    rw [List.flatMap_cons, List.append_assoc, ih]
    exact (eq_text_append_of_first? h).symm

theorem flatMap_text_of_closed {text : String} (h : (ofText text).leftOpen = none) :
    (ofText text).lexemes.flatMap Lexeme.text = LineBreak.normalize text.toList := by
  have hspell : (ofText text).lexemes.flatMap Lexeme.text ++
      ((ofText text).leftOpen.map Prod.snd).getD [] = LineBreak.normalize text.toList :=
    flatMap_text_read none _
  rwa [h, Option.map_none, Option.getD_none, List.append_nil] at hspell

-- In a reading every item fits.
theorem fit_read (before : Option Char) (t : List Char) :
    Lexeme.Fit before (read before t).lexemes := by
  fun_induction read before t with
  | case1 => trivial
  | case2 => trivial
  | case3 before t x rest h r ih =>
    refine ⟨?_, ih⟩
    rintro i rfl
    exact fits_of_first? h

-- A blank is a space or a control character.
theorem blank_of_mem_read {before : Option Char} {t : List Char} {ch : Char}
    (h : Lexeme.blank ch ∈ (read before t).lexemes) : ch ≤ ' ' ∧ ch ≠ '\n' := by
  fun_induction read before t with
  | case1 => cases h
  | case2 => cases h
  | case3 before t x rest hfirst r ih =>
    rcases List.mem_cons.mp h with rfl | hmem
    · exact stands_of_first? hfirst
    · exact ih hmem

end Reading

end ScriptMinifier
