import ScriptMinifier.Proofs.Head
import ScriptMinifier.Proofs.Scanner.Cursor
import ScriptMinifier.Proofs.Transcript

/-!
The window between two steps. What a run has passed by is spelled by the parts that it has
recognised, and a current token that is visible ends the last item among them.
-/

namespace ScriptMinifier

namespace Run

open Cursor (pending)

variable {r s : Run}

/-! ## 1. The item behind which a run stands -/

/-- A current token that is visible ends the last item of `xs`, which is written up to it. -/
def Closes (xs : List Lexeme) (r : Run) : Prop :=
  ∀ ch, r.current = some ch → ' ' < ch →
    ∃ i, (xs.filterMap Lexeme.item?).getLast? = some i ∧ i.text <:+ r.settled

theorem closes_of_item {xs : List Lexeme} {i : Item}
    (hlast : (xs.filterMap Lexeme.item?).getLast? = some i) (htext : i.text <:+ r.settled) :
    r.Closes xs :=
  fun _ _ _ => ⟨i, hlast, htext⟩

theorem closes_of_not_visible {xs : List Lexeme} (h : ∀ ch, r.current = some ch → ch ≤ ' ') :
    r.Closes xs :=
  fun ch hcurrent hvisible => absurd hvisible (Char.not_lt.mpr (h ch hcurrent))

theorem filterMap_tokenParts (c : Cursor) : c.tokenParts.filterMap Lexeme.item? = [] := by
  rw [Cursor.tokenParts]
  generalize c.passed c.token.cursor = t
  unfold Lexeme.ofPassed
  split
  · rfl
  · split
    · rfl
    · split <;> rfl
  · split
    · rfl
    · split <;> rfl

theorem shift_closes (xs : List Lexeme) (h : r.shift = .ok s) : s.Closes (xs ++ r.shiftParts) := by
  rcases shift_cases h with ⟨hupcoming, rfl⟩ | ⟨quote, copied, hupcoming, hquote, hcopied, rfl⟩ |
    ⟨ch, hupcoming, hquote, rfl⟩
  · apply closes_of_not_visible
    intro ch hch
    cases hch
  · have hvisible := (CharClass.ne_of_isQuote hquote).2.2.2
    rw [shiftParts_of_quote hupcoming hquote]
    apply closes_of_item
    · rw [List.filterMap_append]
      exact List.getLast?_concat
    · rw [(@settled_of_visible ⟨_, _, some quote, _, _⟩ quote rfl hvisible).2]
      refine ⟨r.output.toList, ?_⟩
      show _ = copied.toList ++ [quote]
      rw [(copyLiteral_spelled hcopied).2]
      simp [Item.text, Cursor.copyString]
  · rw [shiftParts_of_not_quote hupcoming hquote]
    by_cases hvisible : ' ' < ch
    · rw [if_pos hvisible]
      apply closes_of_item
      · rw [List.filterMap_append]
        exact List.getLast?_concat
      · rw [(@settled_of_visible { r with current := some ch } ch rfl hvisible).2]
        exact List.suffix_append _ _
    · apply closes_of_not_visible
      intro x hx
      cases hx
      exact Char.not_lt.mp hvisible

theorem fetch_closes {xs : List Lexeme} (hcloses : r.Closes xs) (h : r.fetch = .ok s) :
    s.Closes (xs ++ r.fetchParts) := by
  obtain ⟨t, hread, hcases⟩ := fetch_cases h
  have hparts := fetchParts_of_readUpcoming hread
  rcases hcases with ⟨opener, u, hopener, hupcoming, hregex, hcopy, hread'⟩ | ⟨rfl, hother⟩
  · obtain ⟨copied, hcopied, rfl⟩ := copyRegex_eq_ok hcopy
    rw [hparts, regexParts_of_regex hopener hupcoming hregex]
    apply closes_of_item
    · rw [List.filterMap_append, List.filterMap_append, Lexeme.filterMap_item,
        filterMap_tokenParts, filterMap_tokenParts]
      exact List.getLast?_concat
    · rw [settled_of_readUpcoming hread',
        (@settled_of_visible ⟨_, _, some '/', _, _⟩ '/' rfl (by decide)).2]
      refine ⟨t.output.toList ++ [opener], ?_⟩
      show _ = copied.toList ++ ['/']
      rw [(copyLiteral_spelled hcopied).2]
      simp [Item.text, Cursor.copyRegex]
  · intro ch hch hvisible
    rw [(readUpcoming_keeps hread).1] at hch
    obtain ⟨i, hlast, htext⟩ := hcloses ch hch hvisible
    refine ⟨i, ?_, ?_⟩
    · rw [hparts, regexParts_of_other hother, List.append_nil, List.filterMap_append,
        filterMap_tokenParts, List.append_nil]
      exact hlast
    · rwa [settled_of_readUpcoming hread]

theorem step_closes {xs : List Lexeme} {current : Char} (hcloses : r.Closes xs)
    (h : r.step current = .ok s) : s.Closes (xs ++ r.stepParts current) := by
  rcases step_cases h with
    ⟨t, haction, hshift, hfetch⟩ | ⟨t, haction, hshift, hfetch⟩ | ⟨haction, hfetch⟩
  · rw [stepParts_of_emit haction hshift, ← List.append_assoc]
    exact fetch_closes (shift_closes xs hshift) hfetch
  · rw [stepParts_of_advance haction hshift, ← List.append_assoc]
    exact fetch_closes (shift_closes xs hshift) hfetch
  · rw [stepParts_of_fetch haction]
    exact fetch_closes hcloses hfetch

/-- The run stands in `text` behind the parts `seen`, with the upcoming token before it. -/
structure Traced (text : String) (seen : List Lexeme) (r : Run) : Prop where
  begins : Reading.Begins none (LineBreak.normalize text.toList) seen r.settled.getLast?
    (pending r.upcoming ++ r.cursor.unread)
  closes : r.Closes seen

variable {text : String} {n : Nat}

theorem Head.exists_traced (h : Head text n r) : ∃ seen, Traced text seen r := by
  induction h with
  | first fetched =>
    have hstart : (start text).Closes [] := by
      apply closes_of_not_visible
      intro ch hch
      cases hch
      decide
    exact ⟨_, fetch_begins fetched, fetch_closes hstart fetched⟩
  | next head pending stepped ih =>
    obtain ⟨seen, htraced⟩ := ih
    exact ⟨_, htraced.begins.trans (step_begins head.poised pending stepped),
      step_closes htraced.closes stepped⟩

-- What ends in a quote is a string, and nothing else.
theorem Traced.exists_string {seen : List Lexeme} {q : Char} (h : Traced text seen r)
    (hcurrent : r.current = some q) (hquote : CharClass.isQuote q = true) :
    ∃ body, (seen.filterMap Lexeme.item?).getLast? = some (.string q body) ∧
      Literal.Body q body ∧ q :: body <:+ r.output.toList := by
  obtain ⟨hslash, -, -, hvisible⟩ := CharClass.ne_of_isQuote hquote
  obtain ⟨i, hseen, written, htext⟩ := h.closes q hcurrent hvisible
  rw [(settled_of_visible hcurrent hvisible).2] at htext
  have hlast : i.last = q := by
    have hends := congrArg List.getLast? htext
    rw [Item.getLast?_append_text, List.getLast?_concat] at hends
    exact Option.some.inj hends
  obtain ⟨before, hfits⟩ : ∃ before, i.Fits before := by
    apply (Reading.fit_read none (LineBreak.normalize text.toList)).exists_fits
    rw [h.begins.lexemes]
    exact List.mem_append_left _ (Lexeme.mem_of_item? (List.mem_of_getLast? hseen))
  cases i with
  | string quote body =>
    obtain rfl : quote = q := hlast
    refine ⟨body, hseen, hfits.2, written, ?_⟩
    have happend : (written ++ quote :: body) ++ [quote] = r.output.toList ++ [quote] := by
      rw [← htext, List.append_assoc]
      rfl
    exact List.append_cancel_right happend
  | regex body =>
    obtain rfl : '/' = q := hlast
    exact absurd rfl hslash
  | mark ch =>
    obtain rfl : ch = q := hlast
    rw [hfits.2.1] at hquote
    cases hquote

/-! ## 2. The last call of the scanner -/

theorem readUpcoming_reached (hreached : Cursor.scanner.Reached text r.cursor)
    (h : r.readUpcoming = .ok s) : Cursor.scanner.Reached text s.cursor := by
  obtain ⟨token, -, rfl⟩ := follow_eq_ok h
  exact hreached.token

theorem fetch_token (hreached : Cursor.scanner.Reached text r.cursor) (h : r.fetch = .ok s) :
    ∃ c, Cursor.scanner.Reached text c ∧ c.token = ⟨.ok s.upcoming, s.cursor⟩ := by
  obtain ⟨t, hread, ⟨opener, u, -, -, -, hcopy, hread'⟩ | ⟨rfl, -⟩⟩ := fetch_cases h
  · obtain ⟨copied, -, rfl⟩ := copyRegex_eq_ok hcopy
    have hcopied := (readUpcoming_reached hreached hread).copy .regex
      ((t.output.push opener).push '/')
    exact ⟨_, hcopied, token_of_readUpcoming hread'⟩
  · exact ⟨_, hreached, token_of_readUpcoming hread⟩

theorem shift_reached (hreached : Cursor.scanner.Reached text r.cursor) (h : r.shift = .ok s) :
    Cursor.scanner.Reached text s.cursor := by
  rcases shift_cases h with ⟨-, rfl⟩ | ⟨quote, copied, -, -, -, rfl⟩ | ⟨ch, -, -, rfl⟩
  · exact hreached
  · exact hreached.copy (.string quote) r.output
  · exact hreached

theorem step_token {current : Char} (hreached : Cursor.scanner.Reached text r.cursor)
    (h : r.step current = .ok s) :
    ∃ c, Cursor.scanner.Reached text c ∧ c.token = ⟨.ok s.upcoming, s.cursor⟩ := by
  rcases step_cases h with ⟨t, -, hshift, hfetch⟩ | ⟨t, -, hshift, hfetch⟩ | ⟨-, hfetch⟩
  · rw [← write_cursor r current] at hreached
    exact fetch_token (shift_reached hreached hshift) hfetch
  · exact fetch_token (shift_reached hreached hshift) hfetch
  · exact fetch_token hreached hfetch

/-- The upcoming token is what the scanner was asked for last. -/
theorem Head.exists_token (h : Head text n r) :
    ∃ c, Cursor.scanner.Reached text c ∧ c.token = ⟨.ok r.upcoming, r.cursor⟩ := by
  induction h with
  | first fetched => exact fetch_token .start fetched
  | next head pending stepped ih =>
    obtain ⟨c, hreached, htoken⟩ := ih
    have hnext := hreached.token
    change Cursor.scanner.Reached text c.token.cursor at hnext
    rw [htoken] at hnext
    exact step_token hnext stepped

/-! ## 3. The newline in front of a text -/

theorem fetch_settled (h : r.fetch = .ok s) : r.settled <+: s.settled := by
  obtain ⟨t, hread, hcases⟩ := fetch_cases h
  rw [← settled_of_readUpcoming hread]
  rcases hcases with ⟨opener, u, hopener, -, hregex, hcopy, hread'⟩ | ⟨rfl, -⟩
  · obtain ⟨copied, hcopied, rfl⟩ := copyRegex_eq_ok hcopy
    have hvisible := CharClass.space_lt_of_introducesRegex hregex
    rw [settled_of_readUpcoming hread', (settled_of_visible hopener hvisible).2,
      (@settled_of_visible ⟨_, _, some '/', _, _⟩ '/' rfl (by decide)).2]
    show _ <+: copied.toList ++ ['/']
    rw [(copyLiteral_spelled hcopied).2, String.toList_push, String.toList_push, List.append_assoc,
      List.append_assoc]
    exact List.prefix_append _ _
  · exact List.prefix_refl _

theorem output_prefix_settled (r : Run) : r.output.toList <+: r.settled := List.prefix_append _ _

theorem shift_settled (h : r.shift = .ok s) : r.output.toList <+: s.settled := by
  apply List.IsPrefix.trans _ (output_prefix_settled s)
  rcases shift_cases h with ⟨-, rfl⟩ | ⟨quote, copied, -, -, hcopied, rfl⟩ | ⟨ch, -, -, rfl⟩
  · exact List.prefix_refl _
  · show _ <+: copied.toList
    rw [(copyLiteral_spelled hcopied).2, String.toList_push, List.append_assoc]
    exact List.prefix_append _ _
  · exact List.prefix_refl _

theorem write_settled {current : Char} (hcurrent : r.current = some current) :
    r.settled <+: (r.write current).output.toList := by
  by_cases hblank : current = ' ' ∨ current = '\n'
  · have hsettled : r.settled = r.output.toList := by
      rcases hblank with rfl | rfl
      · exact (settled_of_space hcurrent).2
      · exact (settled_of_newline hcurrent).2
    rw [hsettled]
    unfold write
    split
    · exact List.prefix_refl _
    · rw [String.toList_push]
      exact List.prefix_append _ _
  · obtain ⟨hspace, hnewline⟩ := not_or.mp hblank
    have hwritten : r.settled = (r.write current).output.toList := by
      rw [(settled_of_ne hcurrent hspace hnewline).2, write_of_ne r hspace hnewline]
    exact hwritten ▸ List.prefix_refl _

-- What has been settled stays.
theorem step_settled {current : Char} (hcurrent : r.current = some current)
    (h : r.step current = .ok s) : r.settled <+: s.settled := by
  rcases step_cases h with ⟨t, -, hshift, hfetch⟩ | ⟨t, haction, hshift, hfetch⟩ | ⟨-, hfetch⟩
  · exact ((write_settled hcurrent).trans (shift_settled hshift)).trans (fetch_settled hfetch)
  · rw [settled_of_advance hcurrent haction]
    exact (shift_settled hshift).trans (fetch_settled hfetch)
  · exact fetch_settled hfetch

theorem Poised.newline_of_settled_eq_nil (h : Poised r) {current : Char}
    (hcurrent : r.current = some current) (hsettled : r.settled = []) : current = '\n' := by
  by_contra hnewline
  by_cases hspace : current = ' '
  · subst hspace
    obtain ⟨l, hlast, -⟩ := h.space hcurrent
    rw [(settled_of_space hcurrent).2] at hsettled
    rw [hsettled] at hlast
    cases hlast
  · rw [(settled_of_ne hcurrent hspace hnewline).2] at hsettled
    simp at hsettled

-- As long as nothing is settled, the current token has always been a newline.
theorem Head.newline_of_settled_eq_nil (h : Head text n r) (hcurrent : r.current = some '\n')
    (hsettled : r.settled = []) {k : Nat} (hk : k ≤ n) {s : Run} (hs : Head text k s) :
    s.current = some '\n' := by
  induction h with
  | first fetched =>
    obtain rfl := Nat.le_zero.mp hk
    have hsame := (Head.first fetched).after_eq.symm.trans hs.after_eq
    rw [← Option.some.inj hsame, hcurrent]
  | @next n r t current head pending stepped ih =>
    have hnil : r.settled = [] := by
      have hprefix := step_settled pending stepped
      rw [hsettled] at hprefix
      exact List.prefix_nil.mp hprefix
    obtain rfl := head.poised.newline_of_settled_eq_nil pending hnil
    rcases Nat.le_succ_iff.mp hk with hle | rfl
    · exact ih pending hnil hle
    · have hsame := (Head.next head pending stepped).after_eq.symm.trans hs.after_eq
      rw [← Option.some.inj hsame, hcurrent]

/-! ## 4. The window -/

/-- The window of a run over `text` that stands at `r` after `n` steps. -/
structure Window (text : String) (n : Nat) (r : Run) : Prop where
  /-- A slash is not upcoming where it would open a regular expression. -/
  slash : ∀ ch, r.current = some ch → CharClass.introducesRegex ch = true → r.upcoming ≠ some '/'
  /-- A space stands behind a word. If it is to be written, it is written. -/
  space : r.current = some ' ' →
    (∃ l, r.output.toList.getLast? = some l ∧ CharClass.isWord l = true) ∧
      r.write ' ' = { r with output := r.output.push ' ' }
  /-- A newline stands in front of all items, or behind one that keeps it. -/
  newline : r.current = some '\n' →
    (r.output = "" ∧ ∀ k ≤ n, ∀ s, Head text k s → s.current = some '\n') ∨
      ∃ l, r.output.toList.getLast? = some l ∧
        (CharClass.keepsBreakAfter l || CharClass.isWord l) = true
  /-- A quote is the end of the last item that was seen, and that is written up to it. -/
  string : ∀ q, r.current = some q → CharClass.isQuote q = true →
    ∃ seen body, Traced text seen r ∧
      (seen.filterMap Lexeme.item?).getLast? = some (.string q body) ∧
        Literal.Body q body ∧ q :: body <:+ r.output.toList
  /-- What may be the beginning of a literal is the character that was read last. -/
  place : ∀ ch, r.upcoming = some ch → CharClass.isQuote ch = true ∨ ch = '/' →
    ∃ before, LineBreak.normalize text.toList = before ++ ch :: r.cursor.unread ∧
      r.cursor.last = LineBreak.place text.toList before.length

theorem Poised.ne_slash (h : Poised r) {ch : Char} (hcurrent : r.current = some ch)
    (hregex : CharClass.introducesRegex ch = true) : r.upcoming ≠ some '/' := by
  intro hslash
  have hdivides := h.divides hslash
  rw [(settled_of_visible hcurrent (CharClass.space_lt_of_introducesRegex hregex)).2,
    List.getLast?_concat, Option.any_some, hregex] at hdivides
  cases hdivides

theorem write_space {l : Char} (hlast : r.output.toList.getLast? = some l) :
    r.write ' ' = { r with output := r.output.push ' ' } := by
  have hoccupied : r.output.isEmpty = false := by
    rw [Bool.eq_false_iff]
    intro hempty
    rw [String.isEmpty_iff.mp hempty] at hlast
    cases hlast
  rw [write, hoccupied]
  rfl

theorem Head.last_eq_place (h : Head text n r) {ch : Char} (hupcoming : r.upcoming = some ch)
    (hch : CharClass.isQuote ch = true ∨ ch = '/') :
    ∃ before, LineBreak.normalize text.toList = before ++ ch :: r.cursor.unread ∧
      r.cursor.last = LineBreak.place text.toList before.length := by
  obtain ⟨c, hreached, htoken⟩ := h.exists_token
  obtain ⟨before, htext, hplace⟩ := Cursor.exists_place_of_reached hreached
  rw [hupcoming] at htoken
  have hvisible : ' ' < ch := by
    rcases hch with hquote | rfl
    · exact (CharClass.ne_of_isQuote hquote).2.2.2
    · decide
  obtain ⟨hunread, hlast⟩ := c.unread_of_visible htoken hvisible
  exact ⟨before, hunread ▸ htext, hlast.trans hplace⟩

/-- The invariant of the window, at every step of every run. -/
theorem window_of_head (h : Head text n r) : Window text n r where
  slash ch := h.poised.ne_slash
  space hcurrent := by
    obtain ⟨l, hlast, hword⟩ := h.poised.space hcurrent
    exact ⟨⟨l, hlast, hword⟩, write_space hlast⟩
  newline hcurrent := by
    rcases h.poised.newline hcurrent with hnil | hlast
    · refine .inl ⟨String.toList_eq_nil_iff.mp hnil, fun k hk s hs => ?_⟩
      apply h.newline_of_settled_eq_nil hcurrent _ hk hs
      rw [(settled_of_newline hcurrent).2, hnil]
    · exact .inr hlast
  string q hcurrent hquote := by
    obtain ⟨seen, htraced⟩ := h.exists_traced
    obtain ⟨body, hseen, hbody, hwritten⟩ := htraced.exists_string hcurrent hquote
    exact ⟨seen, body, htraced, hseen, hbody, hwritten⟩
  place ch := h.last_eq_place

-- The quote that closes the string is current, and the slash behind it divides.
theorem window_of_head_quote :
    ∃ r, Head "x=/'/+\r\n'a\\'b'/2" 5 r ∧ r.current = some '\'' ∧ r.upcoming = some '/' ∧
      r.output = "x=/'/+'a\\'b" ∧ r.cursor.last = ⟨2, 7⟩ ∧
        Window "x=/'/+\r\n'a\\'b'/2" 5 r := by
  obtain ⟨r, hhead, hr⟩ := @exists_head_of_after "x=/'/+\r\n'a\\'b'/2" 5
    (fun r => r.current = some '\'' ∧ r.upcoming = some '/' ∧ r.output = "x=/'/+'a\\'b" ∧
      r.cursor.last = ⟨2, 7⟩)
    (by decide +kernel)
  obtain ⟨hcurrent, hupcoming, houtput, hlast⟩ := of_decide_eq_true hr
  exact ⟨r, hhead, hcurrent, hupcoming, houtput, hlast, window_of_head hhead⟩

end Run

end ScriptMinifier
