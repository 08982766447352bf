import ScriptMinifier.Proofs.Minify

/-!
Bundling: two texts in one, with a semicolon on a line of its own between them. The line breaks
end whatever the first text leaves unfinished in its last line, and behind the semicolon the
second text is read, and written, as at the beginning of a text.
-/

namespace ScriptMinifier

/-! ## 1. Texts in a row -/

-- A part stays the same if the text is made longer behind a line break.
theorem Lexeme.Stands.append {before : Option Char} {rest : List Char} {x : Lexeme}
    (h : x.Stands before rest) {u : List Char}
    (hmeet : rest = [] → x.text.getLast? = some '\n' ∨ u.head? = some '\n') :
    x.Stands before (rest ++ u) := by
  cases x with
  | item i =>
    refine ⟨h.1, ?_⟩
    rintro rfl
    have hopens := h.2 rfl
    rw [Comment.opens_slash_iff] at hopens ⊢
    cases rest with
    | nil =>
      have hnewline : u.head? = some '\n' := (hmeet rfl).resolve_left (by decide)
      rw [List.nil_append, hnewline]
      decide
    | cons a rest => exact hopens
  | blank ch => exact h
  | newline => trivial
  | lineComment body =>
    refine ⟨h.1, ?_⟩
    cases rest with
    | nil =>
      have hlast : (Lexeme.lineComment body).text.getLast? ≠ some '\n' := by
        intro hlast
        have hmem : '\n' ∈ '/' :: '/' :: body := List.mem_of_getLast? hlast
        simp [h.1] at hmem
      intro ch hch
      exact Option.some.inj ((Option.mem_def.mp hch).symm.trans ((hmeet rfl).resolve_left hlast))
    | cons a rest => exact h.2
  | blockComment body => exact h

namespace Reading

/-- The reading that goes on with another one. -/
def append (x y : Reading) : Reading := ⟨x.lexemes ++ y.lexemes, y.leftOpen⟩

-- Two texts that meet at a line break are read one after the other.
theorem read_append {before : Option Char} {t u : List Char}
    (h : (read before t).leftOpen = none)
    (hmeet : t = [] ∨ t.getLast? = some '\n' ∨ u.head? = some '\n') :
    read before (t ++ u) =
      (read before t).append (read ((read before t).lastBehind before) u) := by
  fun_induction read before t with
  | case1 before t hnil =>
    rw [eq_nil_of_first? hnil]
    rfl
  | case2 => cases h
  | case3 before t x rest hfirst r ih =>
    obtain ⟨rfl, hstands⟩ := first?_eq_ok_iff.mp hfirst
    have hmeet := hmeet.resolve_left (by simp [x.text_ne_nil])
    have hrest : rest = [] ∨ rest.getLast? = some '\n' ∨ u.head? = some '\n' := by
      by_cases hnil : rest = []
      · exact .inl hnil
      · rw [List.getLast?_append, List.getLast?_eq_some_getLast hnil] at hmeet
        rw [List.getLast?_eq_some_getLast hnil]
        exact .inr hmeet
    have hlonger : x.Stands before (rest ++ u) := by
      apply hstands.append
      rintro rfl
      rwa [List.append_nil] at hmeet
    rw [List.append_assoc, read_of_stands hlonger, ih h hrest]
    show _ = (r.prepend x).append (read ((r.prepend x).lastBehind before) u)
    rw [lastBehind_prepend]
    rfl

/-! ## 2. Behind the semicolon -/

-- Of the item before a text, a reading asks one thing only.
theorem first?_congr {before before' : Option Char}
    (h : before.any CharClass.introducesRegex = before'.any CharClass.introducesRegex)
    (t : List Char) : first? before t = first? before' t := by
  unfold first?
  rw [h]

theorem read_congr (before : Option Char) (t : List Char) : ∀ before' : Option Char,
    before.any CharClass.introducesRegex = before'.any CharClass.introducesRegex →
      read before t = read before' t := by
  fun_induction read before t with
  | case1 before t hfirst =>
    intro before' _
    rw [eq_nil_of_first? hfirst, read_nil]
  | case2 before t k hfirst =>
    intro before' h
    rw [first?_congr h] at hfirst
    rw [read_of_first?_error hfirst]
  | case3 before t x rest hfirst r ih =>
    intro before' h
    rw [first?_congr h] at hfirst
    rw [read_of_first? hfirst]
    apply congrArg (prepend x)
    apply ih
    cases x with
    | item i => rfl
    | blank => exact h
    | newline => exact h
    | lineComment => exact h
    | blockComment => exact h

end Reading

namespace Layout

-- Behind an item that keeps no separator, a layout begins anew.
theorem write_of_first {l : Char} (h : ∀ r gap, separator l r gap = []) (gap gap' : Gap)
    (xs : List Lexeme) : write (some l) gap xs = write none gap' xs := by
  induction xs generalizing gap gap' with
  | nil => rfl
  | cons x xs ih =>
    cases hx : x.item? with
    | none => rw [write_of_item?_eq_none hx, write_of_item?_eq_none hx, ih]
    | some i =>
      cases x <;> cases hx
      rw [write_item, write_item, Option.elim_some, Option.elim_none, h]

theorem separator_semicolon_left (r : Char) (gap : Gap) : separator ';' r gap = [] :=
  separator_eq_nil (by decide) (fun _ => by decide) r

theorem separator_semicolon_right (before : Option Char) (gap : Gap) :
    before.elim [] (separator · ';' gap) = [] := by
  cases before with
  | none => rfl
  | some l =>
    have hword : CharClass.isWord ';' = false := by decide
    have hbreak : CharClass.keepsBreakBefore ';' = false := by decide
    cases gap <;> simp [separator, keepsSpace, keepsBreak, hword, hbreak]

-- Whatever separates a semicolon from its neighbours, it is written alone.
theorem write_semicolon (xs ys : List Lexeme) :
    write none .none (xs ++ .item (.mark ';') :: .newline :: ys) =
      write none .none xs ++ ';' :: write none .none ys := by
  rw [write_append, write_item, show (Item.mark ';').first = ';' from rfl,
    separator_semicolon_right, write_of_item?_eq_none rfl]
  exact congrArg (write none .none xs ++ ';' :: ·)
    (write_of_first separator_semicolon_left _ .none ys)

end Layout

/-! ## 3. The bundle -/

namespace Reading

theorem read_semicolon (before : Option Char) (t : List Char) :
    read before (';' :: '\n' :: t) =
      ((read none t).prepend .newline).prepend (.item (.mark ';')) := by
  rw [read_mark (by decide) (by decide) (by decide), read_newline,
    read_congr (some ';') t none (by decide)]

/-- A bundle is read as the first text, the semicolon and the second text. There is a line break
before the semicolon, which may be the one that the first text ends with. -/
theorem ofText_bundle {s : String} (t : String) (h : (ofText s).leftOpen = none) :
    ∃ xs : List Lexeme, (xs = (ofText s).lexemes ∨ xs = (ofText s).lexemes ++ [.newline]) ∧
      ofText (s ++ "\n;\n" ++ t) =
        ⟨xs ++ .item (.mark ';') :: .newline :: (ofText t).lexemes, (ofText t).leftOpen⟩ := by
  have htext : (s ++ "\n;\n" ++ t).toList = s.toList ++ '\n' :: ';' :: '\n' :: t.toList := by
    simp
  have hrest : LineBreak.normalize (';' :: '\n' :: t.toList) =
      ';' :: '\n' :: LineBreak.normalize t.toList := by
    rw [LineBreak.normalize_cons_of_ne (by decide), LineBreak.normalize_cons_of_ne (by decide)]
  by_cases hreturn : s.toList.getLast? = some '\r'
  · refine ⟨_, .inl rfl, ?_⟩
    have hlast := LineBreak.getLast?_normalize_of_return hreturn
    rw [ofText, htext, LineBreak.normalize_append_newline hreturn, hrest,
      read_append h (.inr (.inl hlast)), read_semicolon]
    rfl
  · refine ⟨_, .inr rfl, ?_⟩
    rw [ofText, htext, LineBreak.normalize_append (.inl hreturn),
      LineBreak.normalize_cons_of_ne (by decide), hrest, read_append h (.inr (.inr rfl)),
      read_newline, read_semicolon]
    show Reading.mk ((ofText s).lexemes ++ (.newline :: _)) _ = _
    rw [List.append_cons]
    rfl

end Reading

namespace Position

-- A text that begins some lines further down has its places as many lines further down.
theorem advance_line_add (p : Position) (k : Nat) (t : List Char) :
    (⟨p.line + k, p.column⟩ : Position).advance t =
      ⟨(p.advance t).line + k, (p.advance t).column⟩ := by
  induction t generalizing p with
  | nil => rfl
  | cons c t ih =>
    rw [advance_cons, advance_cons, ← ih]
    by_cases hc : c = '\n'
    · subst hc
      rw [after_newline, after_newline, Nat.add_right_comm]
    · rw [after_of_ne hc, after_of_ne hc]

end Position

-- What a bundle has in front of its second text is the first text and the line of the semicolon.
theorem Reading.flatMap_text_ofText_bundle {s t : String}
    (h : (ofText (s ++ "\n;\n" ++ t)).leftOpen = (ofText t).leftOpen) :
    (ofText (s ++ "\n;\n" ++ t)).lexemes.flatMap Lexeme.text =
      LineBreak.normalize (s ++ "\n;\n").toList ++ (ofText t).lexemes.flatMap Lexeme.text := by
  have hnormal : LineBreak.normalize (s ++ "\n;\n" ++ t).toList =
      LineBreak.normalize (s ++ "\n;\n").toList ++ LineBreak.normalize t.toList := by
    rw [String.toList_append]
    exact LineBreak.normalize_append (.inl (by simp))
  have hbundle : (ofText (s ++ "\n;\n" ++ t)).lexemes.flatMap Lexeme.text ++
      ((ofText (s ++ "\n;\n" ++ t)).leftOpen.map Prod.snd).getD [] =
        LineBreak.normalize (s ++ "\n;\n" ++ t).toList := flatMap_text_read none _
  have hsecond : (ofText t).lexemes.flatMap Lexeme.text ++
      ((ofText t).leftOpen.map Prod.snd).getD [] = LineBreak.normalize t.toList :=
    flatMap_text_read none _
  rw [h, hnormal, ← hsecond, ← List.append_assoc] at hbundle
  exact List.append_cancel_right hbundle

/-- The place behind the line of the semicolon is the beginning of a line. -/
theorem LineBreak.advance_bundle (s : String) (t : List Char) :
    Position.start.advance (normalize (s ++ "\n;\n").toList ++ t) =
      ⟨(Position.start.advance t).line + count (s ++ "\n;\n").toList,
        (Position.start.advance t).column⟩ := by
  have hfollowing : following (s ++ "\n;\n").toList =
      ⟨Position.start.line + count (s ++ "\n;\n").toList, Position.start.column⟩ := by
    have hnormal : normalize (s ++ "\n;\n").toList =
        normalize (s.toList ++ ['\n', ';']) ++ ['\n'] := by
      rw [String.toList_append, show "\n;\n".toList = ['\n', ';'] ++ ['\n'] from rfl,
        ← List.append_assoc]
      exact normalize_append (.inl (by simp))
    have hlast : lastLine (s ++ "\n;\n").toList = [] := by
      rw [lastLine, hnormal, List.reverse_append]
      rfl
    rw [following, hlast]
    rfl
  rw [Position.advance_append, ← following_eq_advance, hfollowing, Position.advance_line_add]

/-- A bundle of two texts is minified to their results with a semicolon between them, if there
are two. A fault in the second text is a fault of the bundle, further down by the lines that come
before that text. -/
theorem minify_bundle {s o : String} (h : minify s = .ok o) (t : String) :
    (∀ p, minify t = .ok p → minify (s ++ "\n;\n" ++ t) = .ok (o ++ ";" ++ p)) ∧
      ∀ fault, minify t = .error fault →
        minify (s ++ "\n;\n" ++ t) = .error ⟨fault.construct,
          ⟨fault.opened.line + LineBreak.count (s ++ "\n;\n").toList, fault.opened.column⟩⟩ := by
  obtain ⟨hopen, rfl⟩ := minify_eq_ok_iff.mp h
  obtain ⟨xs, hxs, hread⟩ := Reading.ofText_bundle t hopen
  constructor
  · intro p hp
    obtain ⟨hopen', rfl⟩ := minify_eq_ok_iff.mp hp
    rw [minify_eq_ok_iff, hread]
    refine ⟨hopen', ?_⟩
    have hwrite : Layout.write none .none xs =
        Layout.write none .none (Reading.ofText s).lexemes := by
      rcases hxs with rfl | rfl
      · rfl
      · -- A newline at the end of a row is not written.
        rw [Layout.write_append]
        exact List.append_nil _
    rw [← String.toList_inj]
    simp [Layout.compact, Layout.write_semicolon, hwrite]
  · intro fault hfault
    cases hopen' : (Reading.ofText t).leftOpen with
    | none =>
      rw [minify, report_of_closed hopen'] at hfault
      cases hfault
    | some p =>
      obtain ⟨k, u⟩ := p
      have hleft : (Reading.ofText (s ++ "\n;\n" ++ t)).leftOpen = some (k, u) := by
        rw [hread, hopen']
      rw [minify_of_leftOpen hopen'] at hfault
      cases hfault
      rw [minify_of_leftOpen hleft, Reading.flatMap_text_ofText_bundle (hleft.trans hopen'.symm),
        LineBreak.advance_bundle]

theorem minify_bundle_comment :
    minify "a / // b\r" = .ok "a/" ∧
      minify "\n+ 'b'" = .ok "+'b'" ∧
        minify ("a / // b\r" ++ "\n;\n" ++ "\n+ 'b'") = .ok "a/;+'b'" ∧
      minify "\nb = /c" = .error ⟨.regex, ⟨2, 5⟩⟩ ∧
        minify ("a / // b\r" ++ "\n;\n" ++ "\nb = /c") = .error ⟨.regex, ⟨4, 5⟩⟩ := by
  have hfirst : minify "a / // b\r" = .ok "a/" := by
    rw [minify_eq_ok_iff]
    decide +kernel
  have hsecond : minify "\n+ 'b'" = .ok "+'b'" := by
    rw [minify_eq_ok_iff]
    decide +kernel
  have hopen : (Reading.ofText "\nb = /c").leftOpen = some (.regex, ['/', 'c']) := by
    decide +kernel
  have hfault : minify "\nb = /c" = .error ⟨.regex, ⟨2, 5⟩⟩ := by
    rw [minify_of_leftOpen hopen]
    decide +kernel
  refine ⟨hfirst, hsecond, (minify_bundle hfirst _).1 _ hsecond, hfault, ?_⟩
  rw [(minify_bundle hfirst _).2 _ hfault]
  decide +kernel

end ScriptMinifier
