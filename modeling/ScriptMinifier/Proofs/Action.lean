import ScriptMinifier.Action

/-!
The rows of the decision table, read from the action back to the tokens.
-/

namespace ScriptMinifier.Action

variable {current : Char} {upcoming : Option Char}

theorem emit_cases (h : choose current upcoming = emit) :
    (current = ' ' ∧ ∃ ch, upcoming = some ch ∧ CharClass.isWord ch = true) ∨
    (current = '\n' ∧ ∃ ch, upcoming = some ch ∧
      (CharClass.keepsBreakBefore ch || CharClass.isWord ch) = true) ∨
    (current ≠ ' ' ∧ current ≠ '\n' ∧ (upcoming = some ' ' → CharClass.isWord current = true) ∧
      (upcoming = some '\n' →
        (CharClass.keepsBreakAfter current || CharClass.isWord current) = true)) := by
  unfold choose at h
  split at h
  · rename_i hspace
    split at h
    · rename_i hword
      exact .inl ⟨hspace, (Option.any_eq_true _ _).mp hword⟩
    · cases h
  rename_i hspace
  split at h
  · rename_i hnewline
    split at h
    · cases h
    split at h
    · rename_i hkeeps
      exact .inr (.inl ⟨hnewline, (Option.any_eq_true _ _).mp hkeeps⟩)
    · cases h
  rename_i hnewline
  refine .inr (.inr ⟨hspace, hnewline, ?_, ?_⟩)
  · intro hupcoming
    rw [if_pos hupcoming] at h
    split at h
    · assumption
    · cases h
  · intro hupcoming
    rw [if_neg (by rw [hupcoming]; decide), if_pos hupcoming] at h
    split at h
    · assumption
    · cases h

theorem advance_cases (h : choose current upcoming = advance) :
    (current = ' ' ∧ ∀ ch, upcoming = some ch → CharClass.isWord ch = false) ∨
    (current = '\n' ∧ upcoming ≠ some ' ' ∧ ∀ ch, upcoming = some ch →
      (CharClass.keepsBreakBefore ch || CharClass.isWord ch) = false) := by
  unfold choose at h
  split at h
  · rename_i hspace
    split at h
    · cases h
    · rename_i hword
      refine .inl ⟨hspace, fun ch hch => ?_⟩
      simpa [hch] using hword
  split at h
  · rename_i hnewline
    split at h
    · cases h
    rename_i hupcoming
    split at h
    · cases h
    · rename_i hkeeps
      refine .inr ⟨hnewline, hupcoming, fun ch hch => ?_⟩
      simpa [hch] using hkeeps
  -- Only a separator can be passed over.
  split at h
  · split at h <;> cases h
  · split at h
    · split at h <;> cases h
    · cases h

theorem fetch_cases (h : choose current upcoming = fetch) :
    (current = '\n' ∧ upcoming = some ' ') ∨
    (current ≠ ' ' ∧ current ≠ '\n' ∧ CharClass.isWord current = false ∧
      (upcoming = some ' ' ∨
        upcoming = some '\n' ∧ CharClass.keepsBreakAfter current = false)) := by
  unfold choose at h
  split at h
  · split at h <;> cases h
  rename_i hspace
  split at h
  · rename_i hnewline
    split at h
    · rename_i hupcoming
      exact .inl ⟨hnewline, hupcoming⟩
    · split at h <;> cases h
  rename_i hnewline
  split at h
  · rename_i hupcoming
    split at h
    · cases h
    · rename_i hword
      exact .inr ⟨hspace, hnewline, by simpa using hword, .inl hupcoming⟩
  split at h
  · rename_i hupcoming
    split at h
    · cases h
    · rename_i hkeeps
      rw [Bool.not_eq_true, Bool.or_eq_false_iff] at hkeeps
      exact .inr ⟨hspace, hnewline, hkeeps.2, .inr ⟨hupcoming, hkeeps.1⟩⟩
  · cases h

end ScriptMinifier.Action
