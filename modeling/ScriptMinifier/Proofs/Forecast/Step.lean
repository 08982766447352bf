import ScriptMinifier.Proofs.Action
import ScriptMinifier.Proofs.Forecast.Fetch

/-!
A step keeps the forecast, whichever action it takes, and leads from one poised state to the next.
-/

namespace ScriptMinifier.Run

/-! ## 1. Moving the window -/

/-- What `r` will end with if it moves its window on next: nothing more is written for the current
token. -/
def forecastBeforeShift (r : Run) : Except Abort (List Char × Array Record) :=
  (Reading.read r.output.toList.getLast? (r.upcoming.toList ++ r.cursor.unread)).outcome
    r.output.toList .none r.log (placeFrom r.cursor)

-- A string is copied where the text has one, and otherwise it is left open there.
theorem shift_forecast_of_quote {r : Run} {quote : Char} (hupcoming : r.upcoming = some quote)
    (hquote : CharClass.isQuote quote = true) :
    r.shift >>= forecastBeforeFetch = r.forecastBeforeShift := by
  obtain ⟨cursor, output, current, upcoming, log⟩ := r
  obtain rfl : upcoming = some quote := hupcoming
  have hshift : shift ⟨cursor, output, current, some quote, log⟩ =
      follow log (cursor.copyLiteral .string quote (output.push quote))
        fun copied c => ⟨c, copied, some quote, some quote, log⟩ :=
    shift_of_quote rfl hquote
  rw [hshift]
  show _ = Reading.outcome (Reading.read output.toList.getLast? (quote :: cursor.unread)) _ _ _ _
  cases hsplit : Literal.split? quote cursor.unread with
  | none =>
    obtain ⟨d, hcopy⟩ := @Cursor.copyLiteral_of_unclosed .string quote cursor
      (output.push quote) hsplit
    rw [Reading.read_of_first?_error (Reading.first?_unclosedString hquote hsplit),
      Reading.outcome_leftOpen, hcopy]
    rfl
  | some p =>
    obtain ⟨body, rest⟩ := p
    obtain ⟨copied, d, hcopy, htext, hreads⟩ := @Cursor.copyLiteral_of_split? .string quote cursor
      (output.push quote) body rest hsplit
    have hwritten : copied.toList ++ [quote] =
        output.toList ++ (Item.string quote body).text := by
      simp [htext, Item.text]
    rw [Reading.read_of_first? (Reading.first?_string hquote hsplit),
      Reading.outcome_prepend_item_of_none, hcopy, ← hwritten]
    show forecastBeforeFetch ⟨d, copied, some quote, some quote, log⟩ = _
    rw [forecast_of_literal (CharClass.ne_of_isQuote hquote).2.2.2 hreads
      (Literal.eq_append_of_split? hsplit)]
    rfl

/-- The current token is done with, and the upcoming one has its place behind what is written. -/
structure Turned (r : Run) : Prop extends Fetched r where
  space : r.upcoming = some ' ' →
    ∃ l, r.output.toList.getLast? = some l ∧ CharClass.isWord l = true
  newline : r.upcoming = some '\n' → r.output.toList = [] ∨
    ∃ l, r.output.toList.getLast? = some l ∧
      (CharClass.keepsBreakAfter l || CharClass.isWord l) = true
  divides : r.upcoming = some '/' →
    r.output.toList.getLast?.any CharClass.introducesRegex = false

theorem Turned.stands {r : Run} {ch : Char} (h : Turned r) (hupcoming : r.upcoming = some ch)
    (hvisible : ' ' < ch) (hquote : CharClass.isQuote ch = false) :
    Lexeme.Stands r.output.toList.getLast? r.cursor.unread (.item (.mark ch)) := by
  refine ⟨⟨hvisible, hquote, ?_⟩, ?_⟩
  · rintro rfl
    exact h.divides hupcoming
  · intro hslash
    obtain rfl := Item.mark.inj hslash
    exact h.toFetched.not_opens hupcoming

-- Moving the window on keeps what the run will end with.
theorem shift_forecast {r : Run} (h : Turned r) :
    r.shift >>= forecastBeforeFetch = r.forecastBeforeShift := by
  cases hupcoming : r.upcoming with
  | none =>
    rw [shift_of_none hupcoming, forecastBeforeShift, hupcoming, h.none_unread hupcoming]
    rw [Option.toList_none, List.nil_append, Reading.read_nil, Reading.outcome_nil]
    show forecastBeforeFetch { r with current := none } = _
    rw [forecastBeforeFetch, (settled_of_none rfl).2]
    show Reading.outcome (Reading.read _ r.cursor.unread) _ _ _ _ = _
    rw [h.none_unread hupcoming, Reading.read_nil, Reading.outcome_nil]
  | some ch =>
    by_cases hquote : CharClass.isQuote ch = true
    · exact shift_forecast_of_quote hupcoming hquote
    rw [shift_of_not_quote hupcoming hquote, forecastBeforeShift, hupcoming, Option.toList_some,
      List.singleton_append]
    show forecastBeforeFetch { r with current := some ch } = _
    rcases h.visible ch hupcoming with rfl | rfl | ⟨hch, -⟩
    · rw [forecastBeforeFetch, (settled_of_space rfl).2, Reading.outcome_space]
      rfl
    · rw [forecastBeforeFetch, (settled_of_newline rfl).2, Reading.outcome_newline]
      rfl
    · have hread : Reading.read _ (ch :: r.cursor.unread) = _ :=
        Reading.read_of_stands (h.stands hupcoming hch (Bool.not_eq_true _ ▸ hquote))
      obtain ⟨hnone, hsettled⟩ := @settled_of_visible { r with current := some ch } ch rfl hch
      rw [hread, Reading.outcome_prepend_item_of_none, forecastBeforeFetch, hnone, hsettled,
        List.getLast?_concat]
      rfl

theorem shift_placed {r s : Run} (h : Turned r) (hshift : r.shift = .ok s) : Placed s := by
  rcases shift_cases hshift with
    ⟨hupcoming, rfl⟩ | ⟨quote, copied, -, hquote, -, rfl⟩ | ⟨ch, hupcoming, -, rfl⟩
  · exact hupcoming ▸ ⟨h.space, h.newline, h.none_unread⟩
  · obtain ⟨-, -, hnewline, hvisible⟩ := CharClass.ne_of_isQuote hquote
    exact @placed_of_ne _ quote rfl (Char.ne_of_lt hvisible).symm hnewline
  · exact hupcoming ▸ ⟨h.space, h.newline, h.none_unread⟩

/-! ## 2. The fate of the current token -/

-- A separator that both of its neighbours keep is what a layout writes for it.
theorem write_of_kept (r : Run) {token next : Char} {gap : Gap}
    (htoken : token = ' ' ∨ token = '\n')
    (hkept : ∀ l, r.output.toList.getLast? = some l → Layout.separator l next gap = [token]) :
    (r.write token).output.toList = r.output.toList ++
      r.output.toList.getLast?.elim [] (Layout.separator · next gap) := by
  have hseparator : (token == ' ' || token == '\n') = true := by simpa using htoken
  cases hlast : r.output.toList.getLast? with
  | none =>
    have hnil : r.output = "" := String.toList_eq_nil_iff.mp (List.getLast?_eq_none_iff.mp hlast)
    simp [write, hseparator, hnil]
  | some l =>
    have hne : r.output ≠ "" := by
      intro h
      rw [h] at hlast
      cases hlast
    rw [Option.elim_some, hkept l hlast]
    simp [write, hseparator, hne]

-- A separator in front of a word character, or of one that keeps a break, is written if the item
-- that it follows keeps it too.
theorem emit_separator {r : Run} {current ch : Char} (h : Poised r) (hspace : ch ≠ ' ')
    (hnewline : ch ≠ '\n') (hcurrent : current = ' ' ∨ current = '\n')
    (hupcoming : r.upcoming = some ch)
    (hkeeps : (CharClass.keepsBreakBefore ch || CharClass.isWord ch) = true)
    (hsettled : r.settled = r.output.toList)
    (hkept : ∀ l, r.output.toList.getLast? = some l → Layout.separator l ch r.gap = [current]) :
    r.forecastBeforeStep = (r.write current).forecastBeforeShift ∧ Turned (r.write current) := by
  obtain ⟨hslash, hquote⟩ := CharClass.ne_of_keepsBreakBefore hkeeps
  have hvisible : ' ' < ch := by
    rcases h.visible ch hupcoming with rfl | rfl | ⟨hvisible, -⟩
    · exact absurd rfl hspace
    · exact absurd rfl hnewline
    · exact hvisible
  constructor
  · rw [forecastBeforeStep, hsettled, hupcoming]
    rw [write_eq, forecastBeforeShift]
    show _ = Reading.outcome (Reading.read _ (r.upcoming.toList ++ r.cursor.unread)) _ _ _ _
    rw [hupcoming, Option.toList_some, List.singleton_append]
    rw [write_of_kept r hcurrent hkept]
    exact Reading.outcome_read_of_kept hvisible hquote hslash _ _
  · have hne (x : Char) (hx : r.upcoming = some x) : x = ch :=
      Option.some.inj (hx.symm.trans hupcoming)
    rw [write_eq]
    exact {
      none_unread := h.none_unread
      visible := h.visible
      space := fun hx => absurd (hne _ hx).symm hspace
      newline := fun hx => absurd (hne _ hx).symm hnewline
      divides := fun hx => absurd (hne _ hx).symm hslash }

theorem emit_spec {r : Run} {current : Char} (h : Poised r) (hcurrent : r.current = some current)
    (hemit : Action.choose current r.upcoming = .emit) :
    r.forecastBeforeStep = (r.write current).forecastBeforeShift ∧ Turned (r.write current) := by
  rcases Action.emit_cases hemit with ⟨rfl, ch, hupcoming, hword⟩ |
    ⟨rfl, ch, hupcoming, hkeeps⟩ | ⟨hspace, hnewline, hword, hkeeps⟩
  · obtain ⟨hgap, hsettled⟩ := settled_of_space hcurrent
    apply emit_separator h _ _ (.inl rfl) hupcoming (by simp [hword]) hsettled
    · intro l hl
      obtain ⟨l', hl', hbefore⟩ := h.space hcurrent
      obtain rfl : l' = l := Option.some.inj (hl'.symm.trans hl)
      simp [hgap, Layout.separator, Layout.keepsSpace, hbefore, hword]
    · rintro rfl
      exact absurd hword (by decide)
    · rintro rfl
      exact absurd hword (by decide)
  · obtain ⟨hgap, hsettled⟩ := settled_of_newline hcurrent
    apply emit_separator h _ _ (.inr rfl) hupcoming hkeeps hsettled
    · intro l hl
      rcases h.newline hcurrent with hnil | ⟨l', hl', hbefore⟩
      · rw [hnil] at hl
        cases hl
      · obtain rfl : l' = l := Option.some.inj (hl'.symm.trans hl)
        rw [hgap, Layout.separator, Layout.keepsBreak, hbefore, hkeeps]
        rfl
    · rintro rfl
      exact absurd hkeeps (by decide)
    · rintro rfl
      exact absurd hkeeps (by decide)
  · obtain ⟨hgap, hsettled⟩ := settled_of_ne hcurrent hspace hnewline
    have houtput := write_of_ne r hspace hnewline
    constructor
    · rw [forecastBeforeStep, hgap, hsettled]
      rw [write_eq, forecastBeforeShift, houtput]
    · have hlast : (r.write current).output.toList.getLast? = some current := by
        rw [houtput, List.getLast?_concat]
      rw [write_eq]
      refine { h.toFetched with
        space := fun hupcoming => ⟨current, hlast, hword hupcoming⟩
        newline := fun hupcoming => .inr ⟨current, hlast, hkeeps hupcoming⟩
        divides := fun hupcoming => ?_ }
      have hdivides := h.divides hupcoming
      rw [hsettled, List.getLast?_concat] at hdivides
      show (r.write current).output.toList.getLast?.any CharClass.introducesRegex = false
      rw [hlast]
      exact hdivides

-- A separator is passed over if what is upcoming does not keep it, or separates as much.
theorem advance_separator {r : Run} (h : Poised r) (hsettled : r.settled = r.output.toList)
    (hspace : r.upcoming = some ' ' → r.gap = .space)
    (hdropped : ∀ ch, r.upcoming = some ch → ' ' < ch → ∀ l, Layout.separator l ch r.gap = []) :
    r.forecastBeforeStep = r.forecastBeforeShift := by
  rw [forecastBeforeStep, hsettled, forecastBeforeShift]
  cases hupcoming : r.upcoming with
  | none =>
    rw [h.none_unread hupcoming]
    rw [Option.toList_none, List.nil_append, Reading.read_nil]
    rw [Reading.outcome_nil, Reading.outcome_nil]
  | some ch =>
    rw [Option.toList_some, List.singleton_append]
    rcases h.visible ch hupcoming with rfl | rfl | ⟨hvisible, hopens⟩
    · rw [hspace hupcoming, Reading.outcome_space, Reading.outcome_space]
      rfl
    · rw [Reading.outcome_newline, Reading.outcome_newline, Gap.join_newline]
      rfl
    · exact Reading.outcome_read_of_dropped hvisible hopens (hdropped ch hupcoming hvisible)

theorem advance_spec {r : Run} {current : Char} (h : Poised r)
    (hcurrent : r.current = some current)
    (hadvance : Action.choose current r.upcoming = .advance) :
    r.forecastBeforeStep = r.forecastBeforeShift ∧ Turned r := by
  rcases Action.advance_cases hadvance with ⟨rfl, hword⟩ | ⟨rfl, hspace, hkeeps⟩
  · obtain ⟨hgap, hsettled⟩ := settled_of_space hcurrent
    obtain ⟨l, hl, hbefore⟩ := h.space hcurrent
    constructor
    · apply advance_separator h hsettled (fun _ => hgap)
      intro ch hupcoming _ l
      simp [hgap, Layout.separator, Layout.keepsSpace, hword ch hupcoming]
    · exact { h.toFetched with
        space := fun _ => ⟨l, hl, hbefore⟩
        newline := fun _ => .inr ⟨l, hl, by simp [hbefore]⟩
        divides := hsettled ▸ h.divides }
  · obtain ⟨hgap, hsettled⟩ := settled_of_newline hcurrent
    constructor
    · apply advance_separator h hsettled (fun hupcoming => absurd hupcoming hspace)
      intro ch hupcoming _ l
      rw [hgap, Layout.separator, Layout.keepsBreak, hkeeps ch hupcoming, Bool.and_false]
      rfl
    · exact { h.toFetched with
        space := fun hupcoming => absurd hupcoming hspace
        newline := fun _ => h.newline hcurrent
        divides := hsettled ▸ h.divides }

-- A separator is dropped before it is the current token if it comes behind one that counts for
-- more, or behind an item that does not keep it.
theorem fetch_spec {r : Run} {current : Char} (hcurrent : r.current = some current)
    (hfetch : Action.choose current r.upcoming = .fetch) :
    r.forecastBeforeStep = r.forecastBeforeFetch := by
  rw [forecastBeforeStep, forecastBeforeFetch]
  rcases Action.fetch_cases hfetch with ⟨rfl, hupcoming⟩ |
    ⟨hspace, hnewline, hword, hupcoming⟩
  · rw [hupcoming, (settled_of_newline hcurrent).1]
    rw [Option.toList_some, List.singleton_append, Reading.outcome_space]
    rfl
  · obtain ⟨hgap, hsettled⟩ := settled_of_ne hcurrent hspace hnewline
    have hlast : r.settled.getLast? = some current := by rw [hsettled, List.getLast?_concat]
    rcases hupcoming with hupcoming | ⟨hupcoming, hkeeps⟩
    · rw [hupcoming, hgap]
      rw [Option.toList_some, List.singleton_append, Reading.outcome_space]
      apply Reading.outcome_of_dropped hlast hword
      intro hspace
      cases hspace
    · rw [hupcoming, hgap]
      rw [Option.toList_some, List.singleton_append, Reading.outcome_newline]
      apply Reading.outcome_of_dropped hlast hword
      intro _
      exact hkeeps

/-! ## 3. A whole step -/

theorem shift_fetch_forecast {r : Run} (h : Turned r) :
    r.forecastBeforeShift = (r.shift >>= fetch) >>= forecastBeforeStep := by
  rw [← shift_forecast h]
  cases r.shift with
  | error abort => rfl
  | ok s => exact fetch_forecast s

/-- What a run will end with does not change from one step to the next. -/
theorem step_forecast {r : Run} {current : Char} (h : Poised r)
    (hcurrent : r.current = some current) :
    r.forecastBeforeStep = r.step current >>= forecastBeforeStep := by
  cases haction : Action.choose current r.upcoming with
  | emit =>
    obtain ⟨hforecast, hturned⟩ := emit_spec h hcurrent haction
    rw [hforecast, step_of_emit haction]
    exact shift_fetch_forecast hturned
  | advance =>
    obtain ⟨hforecast, hturned⟩ := advance_spec h hcurrent haction
    rw [hforecast, step_of_advance haction]
    exact shift_fetch_forecast hturned
  | fetch =>
    rw [fetch_spec hcurrent haction, step_of_fetch haction]
    exact fetch_forecast r

theorem step_poised {r s : Run} {current : Char} (h : Poised r)
    (hcurrent : r.current = some current) (hstep : r.step current = .ok s) : Poised s := by
  rcases step_cases hstep with
    ⟨t, hemit, hshift, hfetch⟩ | ⟨t, hadvance, hshift, hfetch⟩ | ⟨-, hfetch⟩
  · exact fetch_poised (shift_placed (emit_spec h hcurrent hemit).2 hshift) hfetch
  · exact fetch_poised (shift_placed (advance_spec h hcurrent hadvance).2 hshift) hfetch
  · exact fetch_poised h.toPlaced hfetch

end ScriptMinifier.Run
