import ScriptMinifier.Proofs.Report
import ScriptMinifier.Proofs.Token
import ScriptMinifier.Run.Transcript

/-!
A run recognises what a reading of its text finds. The two proceed in lockstep: what a step
recognises is what the reading has next, from the same place and behind the same item.
-/

namespace ScriptMinifier

/-! ## 1. Beginnings of readings -/

namespace Reading

/-- Behind an item that ends in `before`, the text `t` is read as the parts `xs`, and from there on
as the text `u` is read behind an item that ends in `after`. -/
structure Begins (before : Option Char) (t : List Char) (xs : List Lexeme) (after : Option Char)
    (u : List Char) : Prop where
  spelled : t = xs.flatMap Lexeme.text ++ u
  lexemes : (read before t).lexemes = xs ++ (read after u).lexemes

variable {before between after : Option Char} {t u v : List Char} {xs ys : List Lexeme}

theorem Begins.refl (before : Option Char) (t : List Char) : Begins before t [] before t :=
  ⟨rfl, rfl⟩

theorem Begins.trans (first : Begins before t xs between u) (second : Begins between u ys after v) :
    Begins before t (xs ++ ys) after v := by
  constructor
  · rw [first.spelled, second.spelled, List.flatMap_append, List.append_assoc]
  · rw [first.lexemes, second.lexemes, List.append_assoc]

theorem begins_of_first? {x : Lexeme} (h : first? before t = some (.ok (x, u))) :
    Begins before t [x] (behind before x) u := by
  constructor
  · rw [List.flatMap_singleton, eq_text_append_of_first? h]
  · rw [read_of_first? h]
    rfl

theorem begins_of_stands {x : Lexeme} (h : x.Stands before u) :
    Begins before (x.text ++ u) [x] (behind before x) u :=
  begins_of_first? (first?_of_stands h)

end Reading

/-! ## 2. Tokens -/

namespace Cursor

theorem passed_of_append {c d : Cursor} {t : List Char} (h : c.unread = t ++ d.unread) :
    c.passed d = t := by
  show c.unread.take (c.unread.length - d.unread.length) = t
  rw [h, List.length_append, Nat.add_sub_cancel]
  exact List.take_left

/-- A token of which no part was made when it was read. -/
def pending (token : Option Char) : List Char := token.toList.filter (' ' < ·)

theorem pending_of_visible {ch : Char} (h : ' ' < ch) : pending (some ch) = [ch] := by
  simp [pending, h]

theorem pending_of_blank {ch : Char} (h : ch ≤ ' ') : pending (some ch) = [] := by
  simp [pending, Char.not_lt.mpr h]

theorem tokenParts_of_append {c : Cursor} {t : List Char}
    (h : c.unread = t ++ c.token.cursor.unread) : c.tokenParts = Lexeme.ofPassed t := by
  rw [tokenParts, passed_of_append h]

theorem ofPassed_lineComment {body : List Char} (h : '\n' ∉ body) (newline : Bool) :
    Lexeme.ofPassed ('/' :: '/' :: (body ++ if newline then ['\n'] else [])) =
      .lineComment body :: if newline then [.newline] else [] := by
  rw [Lexeme.ofPassed, if_neg (by decide), Comment.takeWhile_append h]
  cases newline with
  | false => simp [h]
  | true => simp

theorem ofPassed_blockComment (body : List Char) :
    Lexeme.ofPassed ('/' :: '*' :: (body ++ ['*', '/'])) = [.blockComment body] := by
  rw [Lexeme.ofPassed, if_pos rfl, List.length_append]
  show [Lexeme.blockComment ((body ++ ['*', '/']).take (body.length + 2 - 2))] = _
  rw [Nat.add_sub_cancel, List.take_left]

-- A character that separates is a part of its own.
theorem begins_character {ch : Char} {rest : List Char} (before : Option Char) :
    Reading.Begins before (ch :: rest) (Lexeme.ofPassed [ch]) before
      (pending (some (CharClass.foldControl ch)) ++ rest) := by
  rw [Lexeme.ofPassed]
  rcases CharClass.foldControl_cases ch with
    rfl | ⟨hspace, hnewline, hfold⟩ | ⟨hvisible, hfold⟩
  · exact Reading.begins_of_stands (x := .newline) trivial
  · rw [if_neg hnewline, if_pos hspace, hfold, pending_of_blank (Char.le_refl ' ')]
    exact Reading.begins_of_stands (x := .blank ch) ⟨hspace, hnewline⟩
  · have hnewline : ch ≠ '\n' := by
      rintro rfl
      exact absurd hvisible (by decide)
    rw [if_neg hnewline, if_neg (Char.not_le.mpr hvisible), hfold, pending_of_visible hvisible]
    exact Reading.Begins.refl before (ch :: rest)

-- The reading of the text goes on with what the token is read from, and then with the token, if
-- that is visible.
theorem token_begins {c d : Cursor} {token : Option Char} (before : Option Char)
    (h : c.token = ⟨.ok token, d⟩) :
    Reading.Begins before c.unread c.tokenParts before (pending token ++ d.unread) := by
  have htaken := (taken_of_token h).2
  have hparts (t : List Char) := @tokenParts_of_append c t
  rw [h] at hparts
  generalize c.unread = t at htaken hparts ⊢
  generalize d.unread = left at htaken hparts ⊢
  generalize houtcome : Except.ok token = outcome at htaken
  cases htaken with
  | nil =>
    cases houtcome
    rw [hparts [] rfl]
    exact Reading.Begins.refl before []
  | @line body _ hbody =>
    cases houtcome
    have hpassed : Lexeme.ofPassed ('/' :: '/' :: (body ++ ['\n'])) =
        [.lineComment body, .newline] := ofPassed_lineComment hbody true
    rw [hparts ('/' :: '/' :: (body ++ ['\n'])) (by simp), hpassed]
    exact (Reading.begins_of_stands (x := .lineComment body) ⟨hbody, by simp⟩).trans
      (Reading.begins_of_stands (x := .newline) trivial)
  | @lastLine body hbody =>
    cases houtcome
    have hpassed : Lexeme.ofPassed ('/' :: '/' :: (body ++ [])) = [.lineComment body] :=
      ofPassed_lineComment hbody false
    rw [← List.append_nil body, hparts ('/' :: '/' :: (body ++ [])) (by simp), hpassed]
    exact Reading.begins_of_stands (x := .lineComment body) ⟨hbody, by simp⟩
  | @block body _ hbody =>
    cases houtcome
    have htext : '/' :: '*' :: (body ++ '*' :: '/' :: left) =
        '/' :: '*' :: (body ++ ['*', '/']) ++ left := by simp
    rw [htext, hparts ('/' :: '*' :: (body ++ ['*', '/'])) htext, ofPassed_blockComment]
    exact Reading.begins_of_stands (x := .blockComment body) hbody
  | unclosed => cases houtcome
  | @character ch =>
    cases houtcome
    rw [hparts [ch] rfl]
    exact begins_character before

end Cursor

namespace Run

open Cursor (pending)

variable {r s : Run}

/-! ## 3. Fetching -/

-- Nothing is settled by a token that is only read.
theorem settled_of_readUpcoming (h : r.readUpcoming = .ok s) : s.settled = r.settled := by
  obtain ⟨hcurrent, houtput⟩ := readUpcoming_keeps h
  rw [settled, settled, gap, gap, hcurrent, houtput]

theorem readUpcoming_begins (h : r.readUpcoming = .ok s) :
    Reading.Begins r.settled.getLast? r.cursor.unread r.cursor.tokenParts s.settled.getLast?
      (pending s.upcoming ++ s.cursor.unread) := by
  rw [settled_of_readUpcoming h]
  exact Cursor.token_begins _ (token_of_readUpcoming h)

theorem readUpcoming_fetched (h : r.readUpcoming = .ok s) : Fetched s := by
  obtain ⟨token, d, hupcoming, rfl⟩ := upcoming_of_readUpcoming h
  exact hupcoming.fetched

-- What a copy passes over is the body that it writes, with the delimiter behind it.
theorem copyLiteral_spelled {k : Construct} {close : Char} {c : Cursor} {out copied : String}
    (h : (c.copyLiteral k close out).outcome = .ok copied) :
    Literal.split? close c.unread = some ((c.passed (c.copyLiteral k close out).cursor).dropLast,
        (c.copyLiteral k close out).cursor.unread) ∧
      copied.toList = out.toList ++ (c.passed (c.copyLiteral k close out).cursor).dropLast := by
  obtain ⟨body, hsplit, hcopied, hreads⟩ := Cursor.split?_of_copyLiteral h
  rw [Cursor.passed_of_append hreads.unread, List.dropLast_concat]
  exact ⟨hsplit, hcopied⟩

theorem copyRegex_begins {opener : Char} (hcurrent : r.current = some opener)
    (hopener : CharClass.introducesRegex opener = true)
    (hopens : ¬ Comment.Opens ('/' :: r.cursor.unread)) (h : copyRegex opener r = .ok s) :
    s.cursor = (r.cursor.copyRegex ((r.output.push opener).push '/')).cursor ∧
      Reading.Begins r.settled.getLast? ('/' :: r.cursor.unread)
        [.item (.regex (r.cursor.passed s.cursor).dropLast)] s.settled.getLast?
        s.cursor.unread := by
  have hvisible := CharClass.space_lt_of_introducesRegex hopener
  obtain ⟨copied, hcopied, rfl⟩ := copyRegex_eq_ok h
  refine ⟨rfl, ?_⟩
  rw [(settled_of_visible hcurrent hvisible).2, List.getLast?_concat,
    (@settled_of_visible ⟨_, _, some '/', _, _⟩ '/' rfl (by decide)).2, List.getLast?_concat]
  exact Reading.begins_of_first?
    (Reading.first?_regex hopens hopener (copyLiteral_spelled hcopied).1)

theorem regexParts_of_regex {opener : Char} (hcurrent : r.current = some opener)
    (hupcoming : r.upcoming = some '/') (hopener : CharClass.introducesRegex opener = true) :
    r.regexParts =
      .item (.regex (r.cursor.passed
        (r.cursor.copyRegex ((r.output.push opener).push '/')).cursor).dropLast) ::
        (r.cursor.copyRegex ((r.output.push opener).push '/')).cursor.tokenParts := by
  rw [regexParts, hcurrent, hupcoming]
  exact if_pos hopener

theorem regexParts_of_other (h : ∀ ch, r.current = some ch → r.upcoming = some '/' →
    CharClass.introducesRegex ch = false) : r.regexParts = [] := by
  unfold regexParts
  split
  · rename_i ch hcurrent hupcoming
    rw [if_neg (by simp [h ch hcurrent hupcoming])]
  · rfl

theorem fetchParts_of_readUpcoming (h : r.readUpcoming = .ok s) :
    r.fetchParts = r.cursor.tokenParts ++ s.regexParts := by
  rw [fetchParts, h]
  rfl

theorem fetch_begins (h : r.fetch = .ok s) :
    Reading.Begins r.settled.getLast? r.cursor.unread r.fetchParts s.settled.getLast?
      (pending s.upcoming ++ s.cursor.unread) := by
  obtain ⟨t, hread, hcases⟩ := fetch_cases h
  rw [fetchParts_of_readUpcoming hread]
  apply (readUpcoming_begins hread).trans
  rcases hcases with ⟨opener, u, hcurrent, hupcoming, hopener, hcopy, hread'⟩ | ⟨rfl, hother⟩
  · have hopens := (readUpcoming_fetched hread).not_opens hupcoming
    obtain ⟨hcursor, hregex⟩ := copyRegex_begins hcurrent hopener hopens hcopy
    rw [hupcoming, Cursor.pending_of_visible (by decide),
      regexParts_of_regex hcurrent hupcoming hopener, ← hcursor]
    exact hregex.trans (readUpcoming_begins hread')
  · rw [regexParts_of_other hother]
    exact Reading.Begins.refl _ _

/-! ## 4. Moving the window -/

theorem shiftParts_of_quote {quote : Char} (hupcoming : r.upcoming = some quote)
    (hquote : CharClass.isQuote quote = true) :
    r.shiftParts = [.item (.string quote
      (r.cursor.passed (r.cursor.copyString quote r.output).cursor).dropLast)] := by
  rw [shiftParts, hupcoming]
  exact if_pos hquote

theorem shiftParts_of_not_quote {ch : Char} (hupcoming : r.upcoming = some ch)
    (hquote : ¬ CharClass.isQuote ch = true) :
    r.shiftParts = if ' ' < ch then [.item (.mark ch)] else [] := by
  rw [shiftParts, hupcoming]
  exact if_neg hquote

theorem shift_begins (hturned : Turned r) (h : r.shift = .ok s) :
    Reading.Begins r.output.toList.getLast? (pending r.upcoming ++ r.cursor.unread) r.shiftParts
      s.settled.getLast? s.cursor.unread := by
  rcases shift_cases h with ⟨hupcoming, rfl⟩ | ⟨quote, copied, hupcoming, hquote, hcopied, rfl⟩ |
    ⟨ch, hupcoming, hquote, rfl⟩
  · rw [(settled_of_none rfl).2, shiftParts, hupcoming]
    exact Reading.Begins.refl _ _
  · have hvisible := (CharClass.ne_of_isQuote hquote).2.2.2
    rw [hupcoming, Cursor.pending_of_visible hvisible, shiftParts_of_quote hupcoming hquote,
      (@settled_of_visible ⟨_, _, some quote, _, _⟩ quote rfl hvisible).2, List.getLast?_concat]
    exact Reading.begins_of_first?
      (Reading.first?_string hquote (copyLiteral_spelled hcopied).1)
  · rw [shiftParts_of_not_quote hupcoming hquote]
    rcases hturned.visible ch hupcoming with rfl | rfl | ⟨hvisible, -⟩
    · rw [(settled_of_space rfl).2, hupcoming]
      exact Reading.Begins.refl _ _
    · rw [(settled_of_newline rfl).2, hupcoming]
      exact Reading.Begins.refl _ _
    · rw [(@settled_of_visible { r with current := some ch } ch rfl hvisible).2,
        List.getLast?_concat, if_pos hvisible, hupcoming, Cursor.pending_of_visible hvisible]
      exact Reading.begins_of_stands
        (hturned.stands hupcoming hvisible (Bool.not_eq_true _ ▸ hquote))

/-! ## 5. A whole step -/

-- Writing the current token does not change how the text before the run is read.
theorem emit_read {current : Char} (h : Poised r) (hcurrent : r.current = some current)
    (hemit : Action.choose current r.upcoming = .emit) :
    Reading.read r.settled.getLast? (pending r.upcoming ++ r.cursor.unread) =
      Reading.read (r.write current).output.toList.getLast?
        (pending r.upcoming ++ r.cursor.unread) := by
  have hkept {ch : Char} (hupcoming : r.upcoming = some ch)
      (hkeeps : (CharClass.keepsBreakBefore ch || CharClass.isWord ch) = true)
      (before before' : Option Char) :
      Reading.read before (pending r.upcoming ++ r.cursor.unread) =
        Reading.read before' (pending r.upcoming ++ r.cursor.unread) := by
    obtain ⟨hslash, hquote⟩ := CharClass.ne_of_keepsBreakBefore hkeeps
    have hvisible : ' ' < ch := by
      rcases h.visible ch hupcoming with rfl | rfl | ⟨hvisible, -⟩
      · exact absurd hkeeps (by decide)
      · exact absurd hkeeps (by decide)
      · exact hvisible
    rw [hupcoming, Cursor.pending_of_visible hvisible, List.singleton_append,
      Reading.read_mark hvisible hquote hslash, Reading.read_mark hvisible hquote hslash]
  rcases Action.emit_cases hemit with ⟨-, ch, hupcoming, hword⟩ |
    ⟨-, ch, hupcoming, hkeeps⟩ | ⟨hspace, hnewline, -, -⟩
  · exact hkept hupcoming (by simp [hword]) _ _
  · exact hkept hupcoming hkeeps _ _
  · rw [(settled_of_ne hcurrent hspace hnewline).2, write_of_ne r hspace hnewline]

-- Only a separator is passed over.
theorem settled_of_advance {current : Char} (hcurrent : r.current = some current)
    (haction : Action.choose current r.upcoming = .advance) : r.settled = r.output.toList := by
  rcases Action.advance_cases haction with ⟨rfl, -⟩ | ⟨rfl, -, -⟩
  · exact (settled_of_space hcurrent).2
  · exact (settled_of_newline hcurrent).2

theorem pending_of_fetch {current : Char} (haction : Action.choose current r.upcoming = .fetch) :
    pending r.upcoming = [] := by
  rcases Action.fetch_cases haction with ⟨-, hupcoming⟩ | ⟨-, -, -, hupcoming | ⟨hupcoming, -⟩⟩
  · rw [hupcoming]
    rfl
  · rw [hupcoming]
    rfl
  · rw [hupcoming]
    rfl

theorem stepParts_of_emit {t : Run} {current : Char}
    (haction : Action.choose current r.upcoming = .emit)
    (hshift : (r.write current).shift = .ok t) :
    r.stepParts current = (r.write current).shiftParts ++ t.fetchParts := by
  rw [stepParts, haction]
  simp only [hshift]
  rfl

theorem stepParts_of_advance {t : Run} {current : Char}
    (haction : Action.choose current r.upcoming = .advance) (hshift : r.shift = .ok t) :
    r.stepParts current = r.shiftParts ++ t.fetchParts := by
  rw [stepParts, haction]
  simp only [hshift]
  rfl

theorem stepParts_of_fetch {current : Char}
    (haction : Action.choose current r.upcoming = .fetch) :
    r.stepParts current = r.fetchParts := by
  rw [stepParts, haction]

theorem step_begins {current : Char} (h : Poised r) (hcurrent : r.current = some current)
    (hstep : r.step current = .ok s) :
    Reading.Begins r.settled.getLast? (pending r.upcoming ++ r.cursor.unread)
      (r.stepParts current) s.settled.getLast? (pending s.upcoming ++ s.cursor.unread) := by
  rcases step_cases hstep with
    ⟨t, haction, hshift, hfetch⟩ | ⟨t, haction, hshift, hfetch⟩ | ⟨haction, hfetch⟩
  · have hbegins := (shift_begins (emit_spec h hcurrent haction).2 hshift).trans
      (fetch_begins hfetch)
    rw [write_upcoming, write_cursor] at hbegins
    rw [stepParts_of_emit haction hshift]
    refine ⟨hbegins.spelled, ?_⟩
    rw [emit_read h hcurrent haction]
    exact hbegins.lexemes
  · rw [settled_of_advance hcurrent haction, stepParts_of_advance haction hshift]
    exact (shift_begins (advance_spec h hcurrent haction).2 hshift).trans (fetch_begins hfetch)
  · rw [pending_of_fetch haction, stepParts_of_fetch haction]
    exact fetch_begins hfetch

/-! ## 6. Whole runs -/

theorem parts_of_none (hcurrent : r.current = none) : r.parts = [] := by
  rw [parts]
  split
  · rfl
  · rename_i ch hch
    rw [hcurrent] at hch
    cases hch

theorem parts_of_step {current : Char} (hcurrent : r.current = some current)
    (hstep : r.step current = .ok s) : r.parts = r.stepParts current ++ s.parts := by
  rw [parts]
  split
  · rename_i hnone
    rw [hcurrent] at hnone
    cases hnone
  · rename_i ch hch
    obtain rfl : current = ch := Option.some.inj (hcurrent.symm.trans hch)
    split
    · rename_i abort herror
      rw [hstep] at herror
      cases herror
    · rename_i t ht
      rw [hstep] at ht
      cases ht
      rfl

theorem finish_parts (h : Poised r) (hfinish : r.finish = .ok s) :
    (Reading.read r.settled.getLast? (pending r.upcoming ++ r.cursor.unread)).lexemes =
      r.parts := by
  fun_induction finish r with
  | case1 r hcurrent =>
    have hupcoming := h.ends hcurrent
    rw [hupcoming, h.none_unread hupcoming, parts_of_none hcurrent]
    show (Reading.read _ []).lexemes = _
    rw [Reading.read_nil]
  | case2 r current hcurrent abort hstep => cases hfinish
  | case3 r current hcurrent t hstep ih =>
    rw [(step_begins h hcurrent hstep).lexemes, parts_of_step hcurrent hstep,
      ih (step_poised h hcurrent hstep) hfinish]

/-- A run that succeeds recognises exactly what the reading of its text finds. -/
theorem transcript_eq {text out : String} (h : minify text = .ok out) :
    transcript text = (Reading.ofText text).lexemes := by
  rw [minify, report] at h
  split at h
  · rename_i s hrun
    obtain ⟨r, hfetch, hfinish⟩ := bind_eq_ok hrun
    have hpoised := fetch_poised (placed_start text) hfetch
    rw [transcript, hfetch]
    show (start text).fetchParts ++ r.parts = _
    rw [← finish_parts hpoised hfinish, ← (fetch_begins hfetch).lexemes]
    rfl
  · cases h

theorem items_eq {text out : String} (h : minify text = .ok out) :
    items text = (Reading.ofText text).items := by
  rw [items, transcript_eq h, Reading.items]

end Run

end ScriptMinifier
