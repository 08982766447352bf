import ScriptMinifier.Run.Finish

/-!
What a step can do. Each part of a step that goes through changes the run in one of a few ways.
What is proved of steps is proved along these ways.
-/

namespace ScriptMinifier.Run

variable {r s : Run}

/-! ## 1. Writing and moving the window -/

-- Only the output changes where a token is written.
theorem write_eq (r : Run) (token : Char) :
    r.write token = { r with output := (r.write token).output } := by
  unfold write
  split <;> rfl

@[simp]
theorem write_cursor (r : Run) (token : Char) : (r.write token).cursor = r.cursor := by
  rw [write_eq]

@[simp]
theorem write_upcoming (r : Run) (token : Char) : (r.write token).upcoming = r.upcoming := by
  rw [write_eq]

theorem write_of_ne (r : Run) {token : Char} (hspace : token ≠ ' ') (hnewline : token ≠ '\n') :
    (r.write token).output.toList = r.output.toList ++ [token] := by
  simp [write, hspace, hnewline]

theorem shift_of_none (hupcoming : r.upcoming = none) :
    r.shift = .ok { r with current := none } := by
  obtain ⟨cursor, output, current, upcoming, log⟩ := r
  obtain rfl : upcoming = none := hupcoming
  rfl

theorem shift_of_not_quote {ch : Char} (hupcoming : r.upcoming = some ch)
    (hquote : ¬ CharClass.isQuote ch = true) : r.shift = .ok { r with current := some ch } := by
  obtain ⟨cursor, output, current, upcoming, log⟩ := r
  obtain rfl : upcoming = some ch := hupcoming
  show (if CharClass.isQuote ch = true then _ else _) = _
  exact if_neg hquote

theorem shift_of_quote {quote : Char} (hupcoming : r.upcoming = some quote)
    (hquote : CharClass.isQuote quote = true) :
    r.shift = follow r.log (r.cursor.copyString quote r.output) fun copied c =>
      { r with cursor := c, output := copied, current := some quote } := by
  obtain ⟨cursor, output, current, upcoming, log⟩ := r
  obtain rfl : upcoming = some quote := hupcoming
  show (if CharClass.isQuote quote = true then _ else _) = _
  exact if_pos hquote

theorem shift_cases (h : r.shift = .ok s) :
    (r.upcoming = none ∧ s = { r with current := none }) ∨
    (∃ quote copied, r.upcoming = some quote ∧ CharClass.isQuote quote = true ∧
      (r.cursor.copyString quote r.output).outcome = .ok copied ∧
      s = { r with
        cursor := (r.cursor.copyString quote r.output).cursor
        output := copied
        current := some quote }) ∨
    ∃ ch, r.upcoming = some ch ∧ ¬ CharClass.isQuote ch = true ∧
      s = { r with current := some ch } := by
  rcases Option.eq_none_or_eq_some r.upcoming with hupcoming | ⟨ch, hupcoming⟩
  · rw [shift_of_none hupcoming] at h
    exact .inl ⟨hupcoming, (Except.ok.inj h).symm⟩
  by_cases hquote : CharClass.isQuote ch = true
  · rw [shift_of_quote hupcoming hquote] at h
    obtain ⟨copied, hcopied, hs⟩ := follow_eq_ok h
    exact .inr (.inl ⟨ch, copied, hupcoming, hquote, hcopied, hs⟩)
  · rw [shift_of_not_quote hupcoming hquote] at h
    exact .inr (.inr ⟨ch, hupcoming, hquote, (Except.ok.inj h).symm⟩)

/-! ## 2. Fetching -/

theorem readUpcoming_eq_ok {token : Option Char} {d : Cursor}
    (h : r.cursor.token = ⟨.ok token, d⟩) :
    r.readUpcoming = .ok { r with upcoming := token, cursor := d } := by
  simp [readUpcoming, follow, h]

theorem token_of_readUpcoming (h : r.readUpcoming = .ok s) :
    r.cursor.token = ⟨.ok s.upcoming, s.cursor⟩ := by
  obtain ⟨token, htoken, rfl⟩ := follow_eq_ok h
  rw [← htoken]

theorem readUpcoming_keeps (h : r.readUpcoming = .ok s) :
    s.current = r.current ∧ s.output = r.output := by
  obtain ⟨token, -, rfl⟩ := follow_eq_ok h
  exact ⟨rfl, rfl⟩

theorem copyRegex_eq_ok {opener : Char} (h : copyRegex opener r = .ok s) :
    ∃ copied, (r.cursor.copyRegex ((r.output.push opener).push '/')).outcome = .ok copied ∧
      s = ⟨(r.cursor.copyRegex ((r.output.push opener).push '/')).cursor, copied, some '/',
        r.upcoming, r.log.push (.regexAfter opener)⟩ := by
  obtain ⟨cursor, output, current, upcoming, log⟩ := r
  simp only [copyRegex] at h
  exact follow_eq_ok h

theorem copyRegex_current {opener : Char} (h : copyRegex opener r = .ok s) :
    s.current = some '/' := by
  obtain ⟨copied, -, rfl⟩ := copyRegex_eq_ok h
  rfl

-- A fetch either stops at the token it read, or goes on behind a regular expression.
theorem fetch_of_readUpcoming (h : r.readUpcoming = .ok s) :
    (∃ opener, s.current = some opener ∧ s.upcoming = some '/' ∧
      CharClass.introducesRegex opener = true ∧
      r.fetch = copyRegex opener s >>= readUpcoming) ∨
    (r.fetch = .ok s ∧ ∀ ch, s.current = some ch → s.upcoming = some '/' →
      CharClass.introducesRegex ch = false) := by
  simp only [fetch, h, bind, Except.bind]
  split
  · rename_i opener hcurrent hupcoming
    split
    · rename_i hopener
      exact .inl ⟨opener, hcurrent, hupcoming, hopener, rfl⟩
    · rename_i hopener
      refine .inr ⟨rfl, fun ch hch _ => ?_⟩
      obtain rfl : opener = ch := Option.some.inj (hcurrent.symm.trans hch)
      exact Bool.not_eq_true _ ▸ hopener
  · rename_i hother
    exact .inr ⟨rfl, fun ch hch hupcoming => (hother ch hch hupcoming).elim⟩

theorem fetch_cases (h : r.fetch = .ok s) :
    ∃ t, r.readUpcoming = .ok t ∧
      ((∃ opener u, t.current = some opener ∧ t.upcoming = some '/' ∧
        CharClass.introducesRegex opener = true ∧ copyRegex opener t = .ok u ∧
        u.readUpcoming = .ok s) ∨
      (s = t ∧ ∀ ch, t.current = some ch → t.upcoming = some '/' →
        CharClass.introducesRegex ch = false)) := by
  obtain ⟨t, hread, -⟩ := bind_eq_ok h
  refine ⟨t, hread, ?_⟩
  rcases fetch_of_readUpcoming hread with
    ⟨opener, hcurrent, hupcoming, hopener, hfetch⟩ | ⟨hfetch, hother⟩
  · rw [hfetch] at h
    obtain ⟨u, hcopy, hread'⟩ := bind_eq_ok h
    exact .inl ⟨opener, u, hcurrent, hupcoming, hopener, hcopy, hread'⟩
  · rw [hfetch] at h
    exact .inr ⟨(Except.ok.inj h).symm, hother⟩

/-! ## 3. A whole step -/

variable {current : Char}

theorem step_of_emit (h : Action.choose current r.upcoming = .emit) :
    r.step current = (r.write current).shift >>= fetch := by
  rw [step, h]

theorem step_of_advance (h : Action.choose current r.upcoming = .advance) :
    r.step current = r.shift >>= fetch := by
  rw [step, h]

theorem step_of_fetch (h : Action.choose current r.upcoming = .fetch) :
    r.step current = r.fetch := by
  rw [step, h]

theorem step_cases (h : r.step current = .ok s) :
    (∃ t, Action.choose current r.upcoming = .emit ∧ (r.write current).shift = .ok t ∧
      t.fetch = .ok s) ∨
    (∃ t, Action.choose current r.upcoming = .advance ∧ r.shift = .ok t ∧ t.fetch = .ok s) ∨
    (Action.choose current r.upcoming = .fetch ∧ r.fetch = .ok s) := by
  cases haction : Action.choose current r.upcoming with
  | emit =>
    rw [step_of_emit haction] at h
    obtain ⟨t, hshift, hfetch⟩ := bind_eq_ok h
    exact .inl ⟨t, rfl, hshift, hfetch⟩
  | advance =>
    rw [step_of_advance haction] at h
    obtain ⟨t, hshift, hfetch⟩ := bind_eq_ok h
    exact .inr (.inl ⟨t, rfl, hshift, hfetch⟩)
  | fetch =>
    rw [step_of_fetch haction] at h
    exact .inr (.inr ⟨rfl, h⟩)

end ScriptMinifier.Run
