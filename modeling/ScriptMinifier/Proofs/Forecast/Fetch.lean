import ScriptMinifier.Proofs.Forecast.Basic
import ScriptMinifier.Proofs.Step
import ScriptMinifier.Proofs.Token

/-!
Fetching keeps the forecast. A token stands for what was read with it, and a regular expression
that is copied was read where the token was.
-/

namespace ScriptMinifier.Run

/-! ## 1. Reading a token -/

theorem readUpcoming_eq_error {r : Run} {fault : Fault} {d : Cursor}
    (h : r.cursor.token = ⟨.error fault, d⟩) : r.readUpcoming = .error ⟨fault, r.log⟩ := by
  rw [readUpcoming, h]
  rfl

section Token

variable {c d : Cursor} {t left : List Char} {ch : Char}

theorem placeFrom_nil (h : c.Reads (t ++ [ch]) d) : placeFrom d [] = c.next.advance t :=
  h.last_eq

theorem placeFrom_cons (h : c.Reads (t ++ [ch]) d) (token : Char) (u : List Char) :
    placeFrom d (token :: u) = c.next.advance (t ++ ch :: u) := by
  show d.next.advance u = _
  rw [h.next, ← Position.advance_append, List.append_assoc]
  rfl

variable (before : Option Char) (written : List Char) (gap : Gap) (log : Array Record)

-- A character that is put back in front of the text that is left is read in its own place.
theorem outcome_of_putBack (h : c.Reads (t ++ [ch]) d) :
    (Reading.read before (ch :: left)).outcome written gap log (fun u => c.next.advance (t ++ u)) =
      (Reading.read before (ch :: left)).outcome written gap log (placeFrom d) :=
  Reading.outcome_read_congr (by rw [placeFrom_nil h, List.append_nil])
    fun u => (placeFrom_cons h ch u).symm

-- Whatever leaves a space is as good as one.
theorem outcome_of_space {x : Lexeme} (hx : x.item? = none) (hgap : x.gap = .space)
    (htext : x.text = t ++ [ch]) (hstands : x.Stands before left) (h : c.Reads (t ++ [ch]) d) :
    (Reading.read before (x.text ++ left)).outcome written gap log c.next.advance =
      (Reading.read before (' ' :: left)).outcome written gap log (placeFrom d) := by
  rw [Reading.outcome_separator _ _ _ _ hx before hstands, hgap, Reading.outcome_space]
  congr 1
  funext u
  rw [htext, List.append_assoc]
  exact (placeFrom_cons h ' ' u).symm

-- A token stands for what was read with it: with the token put back before the text that is left,
-- a reading comes to what it came to before.
theorem outcome_of_token {token : Option Char} (h : c.token = ⟨.ok token, d⟩) :
    (Reading.read before c.unread).outcome written gap log c.next.advance =
      (Reading.read before (token.toList ++ d.unread)).outcome written gap log (placeFrom d) := by
  obtain ⟨⟨passed, hreads⟩, htaken⟩ := Cursor.taken_of_token h
  have hpassed (u : List Char) := @Cursor.Reads.of_unread c d passed u hreads
  generalize c.unread = t at htaken hpassed ⊢
  generalize d.unread = left at htaken hpassed ⊢
  cases htaken with
  | nil =>
    rw [Option.toList_none, List.append_nil, Reading.read_nil, Reading.outcome_nil,
      Reading.outcome_nil]
  | @line body _ hbody =>
    have hline := hpassed ('/' :: '/' :: body ++ ['\n']) (by simp)
    have hstands : Lexeme.Stands before ('\n' :: left) (.lineComment body) := ⟨hbody, by simp⟩
    have hcomment := Reading.outcome_separator written gap log c.next.advance rfl before hstands
    rw [show gap.join (Lexeme.lineComment body).gap = gap from Gap.join_none gap] at hcomment
    exact hcomment.trans (outcome_of_putBack before written gap log hline)
  | @lastLine body hbody =>
    have hstands : Lexeme.Stands before [] (.lineComment body) := ⟨hbody, by simp⟩
    have hcomment := Reading.outcome_separator written gap log c.next.advance rfl before hstands
    rw [List.append_nil] at hcomment
    refine hcomment.trans ?_
    rw [Option.toList_none, List.append_nil, Reading.read_nil, Reading.outcome_nil,
      Reading.outcome_nil]
  | @block body _ hbody =>
    have hblock := hpassed ('/' :: '*' :: (body ++ ['*']) ++ ['/']) (by simp)
    have hstands : Lexeme.Stands before left (.blockComment body) := hbody
    have htext : '/' :: '*' :: (body ++ '*' :: '/' :: left) =
        (Lexeme.blockComment body).text ++ left := by simp [Lexeme.text]
    rw [htext]
    exact outcome_of_space before written gap log rfl rfl (by simp [Lexeme.text]) hstands hblock
  | @character ch =>
    have hchar := hpassed ([] ++ [ch]) rfl
    rcases CharClass.foldControl_cases ch with rfl | ⟨hspace, hnewline, hfold⟩ | ⟨-, hfold⟩
    · exact outcome_of_putBack before written gap log hchar
    · have hstands : Lexeme.Stands before left (.blank ch) := ⟨hspace, hnewline⟩
      rw [hfold]
      exact outcome_of_space before written gap log rfl rfl rfl hstands hchar
    · rw [hfold]
      exact outcome_of_putBack before written gap log hchar

end Token

/-- Reading the token leads to a window in which it is upcoming. The run has the same forecast
with the token as it had without it. -/
structure Upcoming (r : Run) (token : Option Char) (d : Cursor) : Prop where
  read : r.readUpcoming = .ok { r with upcoming := token, cursor := d }
  fetched : Fetched { r with upcoming := token, cursor := d }
  none_left : r.cursor.unread = [] → token = none
  forecast_eq : r.forecastBeforeFetch = forecastBeforeStep { r with upcoming := token, cursor := d }

theorem upcoming_of_token {r : Run} {token : Option Char} {d : Cursor}
    (h : r.cursor.token = ⟨.ok token, d⟩) : r.Upcoming token d where
  read := readUpcoming_eq_ok h
  fetched := by
    have htaken := (Cursor.taken_of_token h).2
    cases token with
    | none => exact fetched_of_none rfl htaken.none_left
    | some ch => exact fetched_of_some rfl htaken.visible
  none_left hnil := by
    have htaken := (Cursor.taken_of_token h).2
    rw [hnil] at htaken
    exact htaken.eq_none
  forecast_eq := outcome_of_token _ _ _ _ h

-- Where no token can be read, the text begins with a comment that is left open.
theorem forecast_of_fault {r : Run} {fault : Fault} {d : Cursor}
    (h : r.cursor.token = ⟨.error fault, d⟩) : r.forecastBeforeFetch = .error ⟨fault, r.log⟩ := by
  have htaken := (Cursor.taken_of_token h).2
  rw [forecastBeforeFetch]
  generalize r.cursor.unread = t at htaken ⊢
  generalize d.unread = left at htaken
  cases htaken with
  | unclosed hend =>
    rw [Reading.read_unclosedComment (Comment.splitBlock?_eq_none_iff.mpr hend),
      Reading.outcome_leftOpen]
    simp

-- A token that is read into the window is a part of the text, and the forecast that the text
-- allowed without it is the forecast with it.
theorem readUpcoming_spec (r : Run) :
    (∃ abort, r.readUpcoming = .error abort ∧ r.forecastBeforeFetch = .error abort) ∨
      ∃ token d, r.Upcoming token d := by
  rcases htoken : r.cursor.token with ⟨fault | token, d⟩
  · exact .inl ⟨_, readUpcoming_eq_error htoken, forecast_of_fault htoken⟩
  · exact .inr ⟨token, d, upcoming_of_token htoken⟩

theorem upcoming_of_readUpcoming {r s : Run} (h : r.readUpcoming = .ok s) :
    ∃ token d, r.Upcoming token d ∧ s = { r with upcoming := token, cursor := d } := by
  rcases readUpcoming_spec r with ⟨abort, herror, -⟩ | ⟨token, d, hupcoming⟩
  · rw [herror] at h
    cases h
  · rw [hupcoming.read] at h
    exact ⟨token, d, hupcoming, (Except.ok.inj h).symm⟩

/-! ## 2. Copying a regular expression -/

-- Behind a literal its closing delimiter is the current token, and so the literal is settled as a
-- whole.
theorem forecast_of_literal {close : Char} {c d : Cursor} {body rest : List Char}
    (hclose : ' ' < close) (hreads : c.Reads (body ++ [close]) d)
    (hrest : c.unread = body ++ close :: rest) (copied : String) (upcoming : Option Char)
    (log : Array Record) :
    forecastBeforeFetch ⟨d, copied, some close, upcoming, log⟩ =
      (Reading.read (some close) rest).outcome (copied.toList ++ [close]) .none log
        fun t => c.next.advance (body ++ [close] ++ t) := by
  obtain ⟨hgap, hsettled⟩ :=
    @settled_of_visible ⟨d, copied, some close, upcoming, log⟩ close rfl hclose
  have hunread : d.unread = rest := by
    apply hreads.unread_eq
    rw [hrest]
    simp
  rw [forecastBeforeFetch, hgap, hsettled, List.getLast?_concat]
  show Reading.outcome (Reading.read (some close) d.unread) _ _ log d.next.advance = _
  rw [hunread, hreads.next]
  congr 1
  funext t
  exact (Position.advance_append _ _ _).symm

-- Behind an operator the text that a slash begins is a regular expression.
theorem copyRegex_spec {r : Run} {opener : Char} (hcurrent : r.current = some opener)
    (hupcoming : r.upcoming = some '/') (hopener : CharClass.introducesRegex opener = true)
    (hopens : ¬ Comment.Opens ('/' :: r.cursor.unread)) :
    r.forecastBeforeStep = copyRegex opener r >>= forecastBeforeFetch := by
  obtain ⟨hgap, hsettled⟩ :=
    settled_of_visible hcurrent (CharClass.space_lt_of_introducesRegex hopener)
  obtain ⟨cursor, output, current, upcoming, log⟩ := r
  obtain rfl : current = some opener := hcurrent
  obtain rfl : upcoming = some '/' := hupcoming
  have hlast : (output.toList ++ [opener]).getLast? = some opener := List.getLast?_concat
  rw [forecastBeforeStep, hsettled, hgap]
  show Reading.outcome (Reading.read (output.toList ++ [opener]).getLast?
      ('/' :: cursor.unread)) _ _ log _ =
    follow (log.push (.regexAfter opener)) (cursor.copyRegex ((output.push opener).push '/'))
      (fun copied c => ⟨c, copied, some '/', some '/', log.push (.regexAfter opener)⟩) >>=
        forecastBeforeFetch
  rw [hlast]
  cases hsplit : Literal.split? '/' cursor.unread with
  | none =>
    obtain ⟨d, hcopy⟩ := @Cursor.copyLiteral_of_unclosed .regex '/' cursor
      ((output.push opener).push '/') hsplit
    have hfirst := @Reading.first?_unclosedRegex (some opener) _ hopens hopener hsplit
    rw [Reading.read_of_first?_error hfirst, Reading.outcome_leftOpen, hlast, Cursor.copyRegex,
      hcopy]
    rfl
  | some p =>
    obtain ⟨body, rest⟩ := p
    obtain ⟨copied, d, hcopy, htext, hreads⟩ := @Cursor.copyLiteral_of_split? .regex '/' cursor
      ((output.push opener).push '/') body rest hsplit
    have hfirst := @Reading.first?_regex (some opener) _ _ _ hopens hopener hsplit
    have hlog : log ++ [Record.regexAfter opener] = log.push (.regexAfter opener) := by simp
    have hwritten : copied.toList ++ ['/'] =
        output.toList ++ [opener] ++ (Item.regex body).text := by
      simp [htext, Item.text]
    rw [Reading.read_of_first? hfirst, Reading.outcome_prepend_item, hlast, Cursor.copyRegex,
      hcopy]
    show Reading.outcome (Reading.read (some '/') rest)
        (output.toList ++ [opener] ++ (Item.regex body).text) .none
        (log ++ [Record.regexAfter opener]) _ =
      forecastBeforeFetch ⟨d, copied, some '/', some '/', log.push (.regexAfter opener)⟩
    rw [forecast_of_literal (by decide) hreads (Literal.eq_append_of_split? hsplit), hlog,
      hwritten]
    rfl

/-! ## 3. A whole fetch -/

theorem readUpcoming_forecast (r : Run) :
    r.forecastBeforeFetch = r.readUpcoming >>= forecastBeforeStep := by
  rcases readUpcoming_spec r with ⟨abort, hread, hforecast⟩ | ⟨token, d, hupcoming⟩
  · rw [hread, hforecast]
    rfl
  · rw [hupcoming.read, hupcoming.forecast_eq]
    rfl

-- Where a slash is upcoming, no comment begins.
theorem Fetched.not_opens {r : Run} (h : Fetched r) (hupcoming : r.upcoming = some '/') :
    ¬ Comment.Opens ('/' :: r.cursor.unread) := by
  rcases h.visible '/' hupcoming with hspace | hnewline | ⟨-, hopens⟩
  · exact absurd hspace (by decide)
  · exact absurd hnewline (by decide)
  · exact hopens

theorem fetch_forecast (r : Run) : r.forecastBeforeFetch = r.fetch >>= forecastBeforeStep := by
  rcases readUpcoming_spec r with ⟨abort, hread, hforecast⟩ | ⟨token, d, h⟩
  · rw [fetch, hread, hforecast]
    rfl
  rw [h.forecast_eq]
  rcases fetch_of_readUpcoming h.read with
    ⟨opener, hcurrent, hupcoming, hopener, hfetch⟩ | ⟨hfetch, -⟩
  · rw [hfetch, copyRegex_spec hcurrent hupcoming hopener (h.fetched.not_opens hupcoming)]
    cases copyRegex opener { r with upcoming := token, cursor := d } with
    | error abort => rfl
    | ok t => exact readUpcoming_forecast t
  · rw [hfetch]
    rfl

-- Behind the current token a slash is upcoming only if it divides.
theorem poised_of_upcoming {r : Run} {token : Option Char} {d : Cursor} (h : Placed r)
    (hupcoming : r.Upcoming token d)
    (hdivides : ∀ ch, r.current = some ch → token = some '/' →
      CharClass.introducesRegex ch = false) :
    Poised { r with upcoming := token, cursor := d } := by
  have hends (hcurrent : r.current = none) : token = none :=
    hupcoming.none_left (h.none_left hcurrent)
  refine { hupcoming.fetched with
    space := h.space
    newline := h.newline
    none_left := fun hcurrent => hupcoming.fetched.none_unread (hends hcurrent)
    ends := hends
    divides := ?_ }
  intro (htoken : token = some '/')
  show r.settled.getLast?.any CharClass.introducesRegex = false
  cases hcurrent : r.current with
  | none =>
    rw [hends hcurrent] at htoken
    cases htoken
  | some ch =>
    by_cases hspace : ch = ' '
    · subst hspace
      obtain ⟨l, hlast, hword⟩ := h.space hcurrent
      rw [(settled_of_space hcurrent).2, hlast]
      exact CharClass.introducesRegex_eq_false (by simp [hword])
    by_cases hnewline : ch = '\n'
    · subst hnewline
      rw [(settled_of_newline hcurrent).2]
      rcases h.newline hcurrent with hnil | ⟨l, hlast, hkeeps⟩
      · rw [hnil]
        rfl
      · rw [hlast]
        exact CharClass.introducesRegex_eq_false hkeeps
    · rw [(settled_of_ne hcurrent hspace hnewline).2, List.getLast?_concat]
      exact hdivides ch hcurrent htoken

-- Behind a regular expression a second slash divides.
theorem readUpcoming_poised {r s : Run} (hcurrent : r.current = some '/')
    (hread : r.readUpcoming = .ok s) : Poised s := by
  obtain ⟨token, d, hupcoming, rfl⟩ := upcoming_of_readUpcoming hread
  apply poised_of_upcoming (placed_of_ne hcurrent (by decide) (by decide)) hupcoming
  intro ch hch _
  obtain rfl : '/' = ch := Option.some.inj (hcurrent.symm.trans hch)
  rfl

theorem fetch_poised {r s : Run} (h : Placed r) (hfetch : r.fetch = .ok s) : Poised s := by
  obtain ⟨t, hread, ⟨opener, u, -, -, -, hcopy, hread'⟩ | ⟨rfl, hdivides⟩⟩ := fetch_cases hfetch
  · exact readUpcoming_poised (copyRegex_current hcopy) hread'
  · obtain ⟨token, d, hupcoming, rfl⟩ := upcoming_of_readUpcoming hread
    exact poised_of_upcoming h hupcoming hdivides

end ScriptMinifier.Run
