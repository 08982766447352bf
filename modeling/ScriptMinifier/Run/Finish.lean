import ScriptMinifier.Run.Basic

/-!
Whole runs. Every step uses up a token of the window or a character of the text, so that a run
comes to its end on every text.
-/

namespace ScriptMinifier.Run

/-! ## 1. What a step uses up -/

/-- What a run has still before it: the tokens of the window and the text behind them. -/
def ahead (r : Run) : Nat :=
  r.current.toList.length + r.upcoming.toList.length + r.cursor.rest.length

theorem follow_eq_ok {α : Type} {log : Array Record} {scan : Scan α} {use : α → Cursor → Run}
    {r : Run} (h : follow log scan use = .ok r) :
    ∃ a, scan.outcome = .ok a ∧ r = use a scan.cursor := by
  unfold follow at h
  split at h
  · rename_i a ha
    exact ⟨a, ha, (Except.ok.inj h).symm⟩
  · cases h

/-- A step that goes through went through in its first part, and then in its second. -/
theorem bind_eq_ok {α β : Type} {x : Except Abort α} {f : α → Except Abort β} {b : β}
    (h : (x >>= f) = .ok b) : ∃ a, x = .ok a ∧ f a = .ok b := by
  cases x with
  | error e => cases h
  | ok a => exact ⟨a, rfl, h⟩

/-- After a move the current token is the one that was upcoming, and nothing was put back. -/
theorem shift_ahead {r s : Run} (h : r.shift = .ok s) :
    s.current = r.upcoming ∧ s.cursor.rest.length ≤ r.cursor.rest.length := by
  obtain ⟨cursor, output, current, upcoming, log⟩ := r
  simp only [shift] at h
  split at h
  · split at h
    · obtain ⟨copied, _, rfl⟩ := follow_eq_ok h
      exact ⟨rfl, Cursor.copyLiteral_rest_length_le ..⟩
    · cases h
      exact ⟨rfl, Nat.le_refl _⟩
  · cases h
    exact ⟨rfl, Nat.le_refl _⟩

theorem readUpcoming_ahead {r s : Run} (h : r.readUpcoming = .ok s) :
    s.ahead ≤ r.current.toList.length + r.cursor.rest.length := by
  obtain ⟨token, htoken, rfl⟩ := follow_eq_ok h
  have := Cursor.token_length_le htoken
  simp only [ahead]
  omega

theorem copyRegex_ahead {r s : Run} {opener : Char} (h : copyRegex opener r = .ok s) :
    s.current.toList.length = 1 ∧ s.cursor.rest.length ≤ r.cursor.rest.length := by
  obtain ⟨cursor, output, current, upcoming, log⟩ := r
  simp only [copyRegex] at h
  obtain ⟨copied, _, rfl⟩ := follow_eq_ok h
  exact ⟨rfl, Cursor.copyLiteral_rest_length_le ..⟩

/-- A token that is fetched takes the place of the upcoming one, whatever that was. -/
theorem fetch_ahead {r s : Run} (h : r.fetch = .ok s) :
    s.ahead ≤ r.current.toList.length + r.cursor.rest.length := by
  obtain ⟨t, ht, hs⟩ := bind_eq_ok h
  have hle := readUpcoming_ahead ht
  split at hs
  · rename_i opener hcurrent _
    split at hs
    · obtain ⟨u, hu, hus⟩ := bind_eq_ok hs
      obtain ⟨hone, hrest⟩ := copyRegex_ahead hu
      have := readUpcoming_ahead hus
      simp only [ahead, hcurrent, Option.toList_some, List.length_singleton] at hle
      omega
    · cases hs
      exact hle
  · cases hs
    exact hle

/-- Every step uses something up. -/
theorem step_ahead {r s : Run} {current : Char} (hcurrent : r.current = some current)
    (h : r.step current = .ok s) : s.ahead < r.ahead := by
  have hahead : r.ahead = 1 + r.upcoming.toList.length + r.cursor.rest.length := by
    simp [ahead, hcurrent]
  unfold step at h
  split at h
  · obtain ⟨t, ht, hts⟩ := bind_eq_ok h
    obtain ⟨htcurrent, hrest⟩ := shift_ahead ht
    have hle := fetch_ahead hts
    rw [htcurrent] at hle
    have hwrite : (r.write current).upcoming = r.upcoming ∧
        (r.write current).cursor = r.cursor := by
      unfold write
      split <;> exact ⟨rfl, rfl⟩
    rw [hwrite.1] at hle
    rw [hwrite.2] at hrest
    omega
  · obtain ⟨t, ht, hts⟩ := bind_eq_ok h
    obtain ⟨htcurrent, hrest⟩ := shift_ahead ht
    have hle := fetch_ahead hts
    rw [htcurrent] at hle
    omega
  · rename_i haction
    have hle := fetch_ahead h
    rw [hcurrent] at hle
    cases hupcoming : r.upcoming with
    | none =>
      rw [hupcoming] at haction
      exact absurd haction (Action.choose_none_ne_fetch current)
    | some ch =>
      rw [hupcoming] at hahead
      simp at hle hahead
      omega

/-! ## 2. Running to the end -/

/-- Steps until the text is used up. -/
def finish (r : Run) : Except Abort Run :=
  match _h : r.current with
  | none => .ok r
  | some current =>
    match _h' : r.step current with
    | .error abort => .error abort
    | .ok s => s.finish
termination_by r.ahead
decreasing_by exact step_ahead _h _h'

end ScriptMinifier.Run
