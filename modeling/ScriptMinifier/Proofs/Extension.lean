import ScriptMinifier.Proofs.Bundle

/-!
Texts that go on. What was read of a text is read again when more text comes behind it, up to the
construct that the text leaves open. If that is a literal broken off by a line break, it stays
open whatever comes. If the text was only at its end, it can be completed.
-/

namespace ScriptMinifier

/-! ## 1. What a construct meets -/

/-- The characters that open and close the literals of a kind. -/
def Construct.IsDelimiter : Construct → Char → Prop
  | .comment, _ => False
  | .string, ch => CharClass.isQuote ch = true
  | .regex, ch => ch = '/'

/-- The text begins with a literal of the kind `k` and breaks it off: there is a line break that no
backslash takes before the closing delimiter. -/
def Construct.MeetsBreak (k : Construct) (t : List Char) : Prop :=
  ∃ close body u, k.IsDelimiter close ∧ Literal.Body close body ∧ t = close :: (body ++ '\n' :: u)

/-- The text begins with a construct of the kind `k` and ends before the construct does. Its last
backslash may have nothing to take. -/
def Construct.MeetsEnd (k : Construct) (t : List Char) : Prop :=
  (k = .comment ∧ ∃ u, t = '/' :: '*' :: u ∧ ¬ ['*', '/'] <:+: u) ∨
    ∃ close body, k.IsDelimiter close ∧ Literal.Body close body ∧
      (t = close :: body ∨ t = close :: (body ++ ['\\']))

-- What is left open is broken off, or meets the end of the text.
theorem Construct.LeftOpen.meets {before : Option Char} {t : List Char} {k : Construct}
    (h : k.LeftOpen before t) : k.MeetsBreak t ∨ k.MeetsEnd t := by
  have hliteral {close : Char} {u : List Char} (hclose : k.IsDelimiter close)
      (hunclosed : Literal.Unclosed close u) :
      k.MeetsBreak (close :: u) ∨ k.MeetsEnd (close :: u) := by
    obtain ⟨body, hbody, rfl | rfl | ⟨v, rfl⟩⟩ := hunclosed
    · exact .inr (.inr ⟨close, u, hclose, hbody, .inl rfl⟩)
    · exact .inr (.inr ⟨close, body, hclose, hbody, .inr rfl⟩)
    · exact .inl ⟨close, body, v, hclose, hbody, rfl⟩
  cases k with
  | comment => exact .inr (.inl ⟨rfl, h⟩)
  | string =>
    obtain ⟨quote, u, rfl, hquote, hunclosed⟩ := h
    exact hliteral hquote hunclosed
  | regex =>
    obtain ⟨u, rfl, -, -, hunclosed⟩ := h
    exact hliteral rfl hunclosed

/-- From the place of the fault on, the text `p` reads `opened`. -/
def Fault.Leaves (p : String) (fault : Fault) (opened : List Char) : Prop :=
  ∃ before, p.toList = before ++ opened ∧ fault.opened = LineBreak.following before

/-- The construct of the fault is broken off by a line break of the text `p`. -/
def Fault.MeetsBreak (p : String) (fault : Fault) : Prop :=
  ∃ opened, fault.Leaves p opened ∧ fault.construct.MeetsBreak (LineBreak.normalize opened)

/-- The construct of the fault runs into the end of the text `p`. -/
def Fault.MeetsEnd (p : String) (fault : Fault) : Prop :=
  ∃ opened, fault.Leaves p opened ∧ fault.construct.MeetsEnd (LineBreak.normalize opened)

/-! ## 2. Places -/

-- Along a line the columns count the characters.
theorem Position.advance_cases (p : Position) (t : List Char) :
    p.line < (p.advance t).line ∨
      (p.advance t).line = p.line ∧ (p.advance t).column = p.column + t.length := by
  induction t generalizing p with
  | nil => exact .inr ⟨rfl, rfl⟩
  | cons c t ih =>
    rw [advance_cons, List.length_cons]
    by_cases hc : c = '\n'
    · subst hc
      rw [after_newline]
      rcases ih ⟨p.line + 1, 1⟩ with hline | ⟨hline, -⟩
      · exact .inl (Nat.lt_of_succ_lt hline)
      · exact .inl (Nat.lt_of_lt_of_eq (Nat.lt_succ_self _) hline.symm)
    · rw [after_of_ne hc]
      rcases ih ⟨p.line, p.column + 1⟩ with hline | ⟨hline, hcolumn⟩
      · exact .inl hline
      · exact .inr ⟨hline, hcolumn.trans (Nat.add_right_comm _ _ _)⟩

theorem Position.advance_ne {t : List Char} (h : t ≠ []) (p : Position) : p.advance t ≠ p := by
  intro heq
  have hlength := List.length_pos_iff.mpr h
  rcases p.advance_cases t with hline | ⟨-, hcolumn⟩
  · rw [heq] at hline
    exact Nat.lt_irrefl _ hline
  · rw [heq] at hcolumn
    omega

namespace LineBreak

theorem following_append_ne {s t : List Char} (hne : t ≠ []) (hhead : t.head? ≠ some '\n') :
    following (s ++ t) ≠ following s := by
  rw [following_eq_advance, following_eq_advance, normalize_append (.inr hhead),
    Position.advance_append]
  apply Position.advance_ne
  cases t with
  | nil => exact absurd rfl hne
  | cons c t =>
    intro hnil
    have hcons := head?_normalize (c :: t)
    rw [hnil] at hcons
    cases hcons

-- A place in a text is that of one character only.
theorem eq_of_following_eq {s t u v : List Char} (h : s ++ t = u ++ v)
    (hplace : following s = following u) (ht : t.head? ≠ some '\n') (hv : v.head? ≠ some '\n') :
    t = v := by
  rcases List.append_eq_append_iff.mp h with ⟨a, rfl, rfl⟩ | ⟨a, rfl, rfl⟩
  · cases a with
    | nil => rfl
    | cons c a => exact absurd hplace.symm (following_append_ne (List.cons_ne_nil c a) ht)
  · cases a with
    | nil => rfl
    | cons c a => exact absurd hplace (following_append_ne (List.cons_ne_nil c a) hv)

theorem exists_normalize_append (s t : List Char) :
    ∃ u, normalize (s ++ t) = normalize s ++ u := by
  by_cases hreturn : s.getLast? = some '\r'
  · cases t with
    | nil => exact ⟨[], by rw [List.append_nil, List.append_nil]⟩
    | cons c t =>
      by_cases hc : c = '\n'
      · subst hc
        exact ⟨_, normalize_append_newline hreturn t⟩
      · exact ⟨_, normalize_append (.inr (by simpa using hc))⟩
  · exact ⟨_, normalize_append (.inl hreturn)⟩

end LineBreak

/-! ## 3. Longer texts -/

-- What a construct meets where it is left open stays in front of whatever comes behind it.
theorem Construct.MeetsBreak.append {k : Construct} {t : List Char} (h : k.MeetsBreak t)
    (u : List Char) : k.MeetsBreak (t ++ u) := by
  obtain ⟨close, body, v, hclose, hbody, rfl⟩ := h
  exact ⟨close, body, v ++ u, hclose, hbody, by simp⟩

theorem Literal.Body.append {close : Char} {body tail : List Char} (h : Literal.Body close body)
    (htail : Literal.Body close tail) : Literal.Body close (body ++ tail) := by
  induction h with
  | nil => exact htail
  | plain hclose hescape hnewline _ ih => exact .plain hclose hescape hnewline ih
  | escape ch _ ih => exact .escape ch ih

namespace Reading

/-- The parts of a text are read again in a longer one, up to what the text leaves open. There the
longer text is read anew. -/
theorem read_append_of_leftOpen {before : Option Char} {t u : List Char} {k : Construct}
    (h : (read before t).leftOpen = some (k, u)) (v : List Char) :
    read before (t ++ v) =
      (read before t).append (read ((read before t).lastBehind before) (u ++ v)) := by
  fun_induction read before t with
  | case1 => cases h
  | case2 before t k' hfirst =>
    cases h
    rfl
  | case3 before t x rest hfirst r ih =>
    obtain ⟨rfl, hstands⟩ := first?_eq_ok_iff.mp hfirst
    have hlonger : x.Stands before (rest ++ v) := by
      apply hstands.append
      rintro rfl
      rw [show r = read _ [] from rfl, read_nil] at h
      cases h
    rw [List.append_assoc, read_of_stands hlonger, ih h]
    show _ = (r.prepend x).append (read ((r.prepend x).lastBehind before) (u ++ v))
    rw [lastBehind_prepend]
    rfl

end Reading

/-! ## 4. Broken off -/

theorem Construct.LeftOpen.append {before : Option Char} {t : List Char} {k : Construct}
    (h : k.LeftOpen before t) (hbreak : k.MeetsBreak t) (u : List Char) :
    k.LeftOpen before (t ++ u) := by
  obtain ⟨close, body, v, hclose, hbody, htext⟩ := hbreak.append u
  have hunclosed : Literal.Unclosed close (body ++ '\n' :: v) := ⟨body, hbody, .inr (.inr ⟨v, rfl⟩)⟩
  rw [htext]
  cases k with
  | comment => exact hclose.elim
  | string => exact ⟨close, _, rfl, hclose, hunclosed⟩
  | regex =>
    obtain rfl : close = '/' := hclose
    obtain ⟨w, rfl, hopens, hintroduces, -⟩ := h
    refine ⟨_, rfl, ?_, hintroduces, hunclosed⟩
    -- There is a character behind the slash already, and it decides.
    rw [← htext, List.cons_append, Comment.opens_slash_iff]
    rw [Comment.opens_slash_iff] at hopens
    cases w with
    | nil =>
      obtain ⟨close, body, v, -, -, hnil⟩ := hbreak
      exact absurd (congrArg List.length hnil) (by simp)
    | cons c w => exact hopens

/-- A literal that is broken off stays so, whatever is put behind the text. -/
theorem minify_append_of_meetsBreak {p : String} {k : Construct} {o : List Char}
    (h : (Reading.ofText p).leftOpen = some (k, o)) (hbreak : k.MeetsBreak o) (t : String) :
    minify (p ++ t) = minify p := by
  obtain ⟨v, hv⟩ := LineBreak.exists_normalize_append p.toList t.toList
  have hopen := (Reading.leftOpen_read h).append hbreak v
  have hread : Reading.ofText (p ++ t) =
      ⟨(Reading.ofText p).lexemes, some (k, o ++ v)⟩ := by
    rw [Reading.ofText, String.toList_append, hv, Reading.read_append_of_leftOpen h,
      Reading.read_of_first?_error (Reading.first?_of_leftOpen hopen), Reading.append,
      List.append_nil]
    rfl
  rw [minify_of_leftOpen h, minify_of_leftOpen (congrArg Reading.leftOpen hread), hread]

/-! ## 5. Completed -/

theorem Construct.IsDelimiter.ne {k : Construct} {close : Char} (h : k.IsDelimiter close) :
    close ≠ 'a' ∧ close ≠ '\n' ∧ close ≠ '\r' := by
  cases k with
  | comment => exact h.elim
  | string => rcases CharClass.isQuote_iff.mp h with rfl | rfl <;> decide
  | regex =>
    obtain rfl : close = '/' := h
    decide

-- A construct that is left open for the end of the text can be closed.
theorem Construct.LeftOpen.exists_stands {before : Option Char} {t : List Char} {k : Construct}
    (h : k.LeftOpen before t) (hend : k.MeetsEnd t) :
    ∃ v x, '\r' ∉ v ∧ v.head? ≠ some '\n' ∧ t ++ v = Lexeme.text x ∧ x.Stands before [] := by
  rcases hend with ⟨rfl, u, rfl, hclose⟩ | ⟨close, body, hclose, hbody, htext⟩
  · refine ⟨['*', '/'], .blockComment u, by decide, by decide, rfl, ?_⟩
    show ¬ ['*', '/'] <:+: u ++ ['*']
    rw [List.infix_concat_iff]
    rintro (hsuffix | hinfix)
    · have hlast := hsuffix.getLast (by simp)
      simp at hlast
    · exact hclose hinfix
  -- A letter gives a backslash at the end something to take, and does no harm otherwise.
  obtain ⟨w, rfl, hclosed⟩ : ∃ w, t = close :: w ∧ Literal.Body close (w ++ ['a']) := by
    have hletter : Literal.Body close ['a'] :=
      .plain hclose.ne.1.symm (by decide) (by decide) .nil
    rcases htext with rfl | rfl
    · exact ⟨_, rfl, hbody.append hletter⟩
    · refine ⟨_, rfl, ?_⟩
      rw [List.append_assoc]
      exact hbody.append (.escape 'a' .nil)
  have hreturn : '\r' ∉ ['a', close] := by simp [hclose.ne.2.2.symm]
  cases k with
  | comment => exact hclose.elim
  | string =>
    refine ⟨_, .item (.string close (w ++ ['a'])), hreturn, by simp, ?_, ⟨hclose, hclosed⟩, ?_⟩
    · simp [Lexeme.text, Item.text]
    · rintro hmark
      cases hmark
  | regex =>
    obtain rfl : close = '/' := hclose
    obtain ⟨u, hu, hopens, hintroduces, -⟩ := h
    refine ⟨_, .item (.regex (w ++ ['a'])), hreturn, by decide, ?_,
      ⟨hintroduces, hclosed, by simp, ?_⟩, ?_⟩
    · simp [Lexeme.text, Item.text]
    · intro hstar
      rw [Comment.opens_slash_iff] at hopens
      cases w with
      | nil => cases hstar
      | cons c w => exact hopens (.inr hstar)
    · rintro hmark
      cases hmark

/-- A construct that runs into the end of the text only lacks its ending. -/
theorem exists_minify_append_of_meetsEnd {p : String} {k : Construct} {o : List Char}
    (h : (Reading.ofText p).leftOpen = some (k, o)) (hend : k.MeetsEnd o) :
    ∃ t out, minify (p ++ t) = .ok out := by
  obtain ⟨v, x, hreturn, hhead, htext, hstands⟩ := (Reading.leftOpen_read h).exists_stands hend
  have hclosed : (Reading.ofText (p ++ String.ofList v)).leftOpen = none := by
    rw [Reading.ofText, String.toList_append, String.toList_ofList,
      LineBreak.normalize_append (.inr hhead), LineBreak.normalize_eq_self hreturn,
      Reading.read_append_of_leftOpen h, htext, ← List.append_nil x.text,
      Reading.read_of_stands hstands, Reading.read_nil]
    rfl
  exact ⟨_, _, minify_eq_ok_iff.mpr ⟨hclosed, rfl⟩⟩

/-! ## 6. The two kinds of faults -/

theorem LineBreak.head?_ne_of_normalize {t u : List Char} {c : Char}
    (h : normalize t = c :: u) (hc : c ≠ '\n') : t.head? ≠ some '\n' := by
  intro hnewline
  have hhead := head?_normalize t
  rw [h, hnewline] at hhead
  exact hc (Option.some.inj hhead)

theorem Construct.head?_ne_of_meets {k : Construct} {t : List Char}
    (h : k.MeetsBreak (LineBreak.normalize t) ∨ k.MeetsEnd (LineBreak.normalize t)) :
    t.head? ≠ some '\n' := by
  rcases h with ⟨close, body, u, hclose, -, htext⟩ | ⟨-, u, htext, -⟩ |
    ⟨close, body, hclose, -, htext | htext⟩
  · exact LineBreak.head?_ne_of_normalize htext hclose.ne.2.1
  · exact LineBreak.head?_ne_of_normalize htext (by decide)
  · exact LineBreak.head?_ne_of_normalize htext hclose.ne.2.1
  · exact LineBreak.head?_ne_of_normalize htext hclose.ne.2.1

-- The place of a fault says which construct it is about.
theorem Fault.Leaves.eq {p : String} {fault : Fault} {t u : List Char} (ht : fault.Leaves p t)
    (hu : fault.Leaves p u) (hthead : t.head? ≠ some '\n') (huhead : u.head? ≠ some '\n') :
    t = u := by
  obtain ⟨before, htext, hplace⟩ := ht
  obtain ⟨before', htext', hplace'⟩ := hu
  exact LineBreak.eq_of_following_eq (htext.symm.trans htext') (hplace.symm.trans hplace') hthead
    huhead

theorem exists_leaves_of_minify {p : String} {fault : Fault} (h : minify p = .error fault) :
    ∃ opened, fault.Leaves p opened ∧
      (Reading.ofText p).leftOpen = some (fault.construct, LineBreak.normalize opened) := by
  cases hopen : (Reading.ofText p).leftOpen with
  | none =>
    rw [minify_eq_ok_iff.mpr ⟨hopen, rfl⟩] at h
    cases h
  | some x =>
    obtain ⟨k, t⟩ := x
    obtain ⟨before, opened, htext, hbefore, rfl⟩ := exists_append_of_leftOpen hopen
    rw [minify_of_leftOpen hopen] at h
    cases h
    refine ⟨opened, ⟨before, htext, ?_⟩, rfl⟩
    rw [LineBreak.following_eq_advance, hbefore]

/-- An error is final, or else it only asks for an ending. A literal that a line break breaks off
fails in the same way and at the same place whatever is put behind the text, and what runs into
the end of the text can be completed. -/
theorem minify_append_of_error {p : String} {fault : Fault} (h : minify p = .error fault) :
    (fault.MeetsBreak p ∧ (∀ t, minify (p ++ t) = .error fault) ∧ ¬ fault.MeetsEnd p) ∨
      (fault.MeetsEnd p ∧ (∃ t out, minify (p ++ t) = .ok out) ∧ ¬ fault.MeetsBreak p) := by
  obtain ⟨opened, hleaves, hopen⟩ := exists_leaves_of_minify h
  have hmeets := (Reading.leftOpen_read hopen).meets
  have hhead := Construct.head?_ne_of_meets hmeets
  have hfinal : fault.MeetsBreak p → ∀ t, minify (p ++ t) = .error fault := by
    rintro ⟨opened', hleaves', hbreak⟩ t
    obtain rfl := hleaves'.eq hleaves (Construct.head?_ne_of_meets (.inl hbreak)) hhead
    rw [minify_append_of_meetsBreak hopen hbreak, h]
  have hunfinished : fault.MeetsEnd p → ∃ t out, minify (p ++ t) = .ok out := by
    rintro ⟨opened', hleaves', hend⟩
    obtain rfl := hleaves'.eq hleaves (Construct.head?_ne_of_meets (.inr hend)) hhead
    exact exists_minify_append_of_meetsEnd hopen hend
  have hnot : ¬ (fault.MeetsBreak p ∧ fault.MeetsEnd p) := by
    rintro ⟨hbreak, hend⟩
    obtain ⟨t, out, hok⟩ := hunfinished hend
    rw [hfinal hbreak t] at hok
    cases hok
  rcases hmeets with hbreak | hend
  · have hbreak : fault.MeetsBreak p := ⟨opened, hleaves, hbreak⟩
    exact .inl ⟨hbreak, hfinal hbreak, fun hend => hnot ⟨hbreak, hend⟩⟩
  · have hend : fault.MeetsEnd p := ⟨opened, hleaves, hend⟩
    exact .inr ⟨hend, hunfinished hend, fun hbreak => hnot ⟨hbreak, hend⟩⟩

/-- The carriage return breaks the string off, and the newline that completes the line break changes
nothing. The backslash still waits for a character. -/
theorem minify_append_of_error_escape :
    minify "x = 'a\r" = .error ⟨.string, ⟨1, 5⟩⟩ ∧
      minify ("x = 'a\r" ++ "\n'") = .error ⟨.string, ⟨1, 5⟩⟩ ∧
      minify "x = /a\\" = .error ⟨.regex, ⟨1, 5⟩⟩ ∧
      ∃ t out, minify ("x = /a\\" ++ t) = .ok out := by
  have hstring : minify "x = 'a\r" = .error ⟨.string, ⟨1, 5⟩⟩ := by
    have hopen : (Reading.ofText "x = 'a\r").leftOpen = some (.string, ['\'', 'a', '\n']) := by
      decide +kernel
    rw [minify_of_leftOpen hopen]
    decide +kernel
  have hregex : minify "x = /a\\" = .error ⟨.regex, ⟨1, 5⟩⟩ := by
    have hopen : (Reading.ofText "x = /a\\").leftOpen = some (.regex, ['/', 'a', '\\']) := by
      decide +kernel
    rw [minify_of_leftOpen hopen]
    decide +kernel
  have hbreak : Fault.MeetsBreak "x = 'a\r" ⟨.string, ⟨1, 5⟩⟩ :=
    ⟨['\'', 'a', '\r'], ⟨"x = ".toList, by decide +kernel, by decide +kernel⟩, '\'', ['a'], [],
      rfl, .plain (by decide) (by decide) (by decide) .nil, by decide +kernel⟩
  have hend : Fault.MeetsEnd "x = /a\\" ⟨.regex, ⟨1, 5⟩⟩ :=
    ⟨['/', 'a', '\\'], ⟨"x = ".toList, by decide +kernel, by decide +kernel⟩, .inr ⟨'/', ['a'],
      rfl, .plain (by decide) (by decide) (by decide) .nil, .inr (by decide +kernel)⟩⟩
  refine ⟨hstring, ?_, hregex, ?_⟩
  · rcases minify_append_of_error hstring with ⟨-, hfinal, -⟩ | ⟨-, -, hnot⟩
    · exact hfinal _
    · exact absurd hbreak hnot
  · rcases minify_append_of_error hregex with ⟨-, -, hnot⟩ | ⟨-, hcompleted, -⟩
    · exact absurd hend hnot
    · exact hcompleted

end ScriptMinifier
