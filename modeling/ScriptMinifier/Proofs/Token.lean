import ScriptMinifier.Proofs.CharClass
import ScriptMinifier.Proofs.Scanning

/-!
Tokens. What a cursor takes off the text for a token depends on how the text before it begins, and
on nothing else.
-/

namespace ScriptMinifier

/-- What asking for a token makes of the text before a scanner, whose first character stands at
`place`: its outcome, and the text that it leaves. -/
inductive Comment.Taken (place : Position) :
    List Char → Except Fault (Option Char) → List Char → Prop where
  | nil : Taken place [] (.ok none) []
  | line {body rest : List Char} (no_newline : '\n' ∉ body) :
      Taken place ('/' :: '/' :: (body ++ '\n' :: rest)) (.ok (some '\n')) rest
  | lastLine {body : List Char} (no_newline : '\n' ∉ body) :
      Taken place ('/' :: '/' :: body) (.ok none) []
  /-- The end of the comment is the first that does not use its opening star. -/
  | block {body rest : List Char} (no_end : ¬ ['*', '/'] <:+: body ++ ['*']) :
      Taken place ('/' :: '*' :: (body ++ '*' :: '/' :: rest)) (.ok (some ' ')) rest
  | unclosed {t : List Char} (no_end : ¬ ['*', '/'] <:+: t) :
      Taken place ('/' :: '*' :: t) (.error ⟨.comment, place⟩) []
  | character {ch : Char} {rest : List Char} (not_opens : ¬ Opens (ch :: rest)) :
      Taken place (ch :: rest) (.ok (some (CharClass.foldControl ch))) rest

namespace Comment.Taken

variable {place : Position} {t left : List Char} {ch : Char}

theorem none_left (h : Taken place t (.ok none) left) : left = [] := by
  cases h with
  | nil => rfl
  | lastLine => rfl

theorem eq_none {token : Option Char} (h : Taken place [] (.ok token) left) : token = none := by
  cases h with
  | nil => rfl

-- A token that is no separator begins no comment.
theorem visible (h : Taken place t (.ok (some ch)) left) :
    ch = ' ' ∨ ch = '\n' ∨ ' ' < ch ∧ ¬ Opens (ch :: left) := by
  cases h with
  | line => exact .inr (.inl rfl)
  | block => exact .inl rfl
  | @character x _ hopens =>
    rcases CharClass.foldControl_cases x with rfl | ⟨-, -, hfold⟩ | ⟨hvisible, hfold⟩
    · exact .inr (.inl rfl)
    · exact .inl hfold
    · rw [hfold]
      exact .inr (.inr ⟨hvisible, hopens⟩)

-- A token that is no separator is the next character.
theorem eq_cons_of_visible (h : Taken place t (.ok (some ch)) left) (hch : ' ' < ch) :
    t = ch :: left := by
  cases h with
  | line => exact absurd hch (by decide)
  | block => exact absurd hch (by decide)
  | @character x =>
    have hsame : x = CharClass.foldControl x := (CharClass.foldControl_eq_iff (.inr hch)).mp rfl
    rw [← hsame]

end Comment.Taken

namespace Cursor

variable {c d : Cursor}

theorem token_spec_of_lineComment {t : List Char} (h : c.unread = '/' :: '/' :: t) :
    (∃ passed, c.Reads passed c.token.cursor) ∧
      Comment.Taken c.next c.unread c.token.outcome c.token.cursor.unread := by
  by_cases hnewline : '\n' ∈ t
  · obtain ⟨body, rest, rfl, hbody⟩ := List.eq_append_cons_of_mem hnewline
    obtain ⟨d, htoken, hreads⟩ := token_of_line hbody h
    have hd : d.unread = rest := by
      apply hreads.unread_eq
      rw [h]
      simp
    rw [htoken, hd, h]
    exact ⟨⟨_, hreads⟩, .line hbody⟩
  · obtain ⟨d, htoken, hreads⟩ := token_of_lastLine hnewline h
    rw [htoken, hreads.unread_eq_nil, h]
    exact ⟨⟨_, hreads⟩, .lastLine hnewline⟩

theorem token_spec_of_blockComment {t : List Char} (h : c.unread = '/' :: '*' :: t) :
    (∃ passed, c.Reads passed c.token.cursor) ∧
      Comment.Taken c.next c.unread c.token.outcome c.token.cursor.unread := by
  cases hsplit : Comment.splitBlock? t with
  | none =>
    obtain ⟨d, htoken, hreads⟩ := token_of_unclosedComment h hsplit
    rw [htoken, hreads.unread_eq_nil, h]
    exact ⟨⟨_, hreads⟩, .unclosed (Comment.splitBlock?_eq_none_iff.mp hsplit)⟩
  | some p =>
    obtain ⟨body, rest⟩ := p
    obtain ⟨d, htoken, hreads⟩ := token_of_blockComment h hsplit
    rw [Comment.eq_append_of_splitBlock? hsplit] at h
    have hd : d.unread = rest := by
      apply hreads.unread_eq
      rw [h]
      simp
    rw [htoken, hd, h]
    exact ⟨⟨_, hreads⟩, .block (Comment.body_of_splitBlock? hsplit)⟩

theorem token_spec (c : Cursor) :
    (∃ passed, c.Reads passed c.token.cursor) ∧
      Comment.Taken c.next c.unread c.token.outcome c.token.cursor.unread := by
  cases hunread : c.unread with
  | nil =>
    rw [token_of_rest_eq_nil (unread_eq_nil_iff.mp hunread), hunread]
    exact ⟨⟨[], Reads.refl c⟩, .nil⟩
  | cons ch t =>
    by_cases hopens : Comment.Opens (ch :: t)
    · rw [← hunread]
      rcases hopens with ⟨u, hu⟩ | ⟨u, hu⟩
      · exact token_spec_of_lineComment (hunread.trans hu.symm)
      · exact token_spec_of_blockComment (hunread.trans hu.symm)
    · obtain ⟨d, htoken, hreads⟩ := token_of_not_opens hunread hopens
      rw [htoken, hreads.unread_eq hunread]
      exact ⟨⟨_, hreads⟩, .character hopens⟩

theorem taken_of_token {outcome : Except Fault (Option Char)} (h : c.token = ⟨outcome, d⟩) :
    (∃ passed, c.Reads passed d) ∧ Comment.Taken c.next c.unread outcome d.unread := by
  have hspec := c.token_spec
  rwa [h] at hspec

-- A visible token is the character that was read last.
theorem unread_of_visible {ch : Char} (h : c.token = ⟨.ok (some ch), d⟩) (hch : ' ' < ch) :
    c.unread = ch :: d.unread ∧ d.last = c.next := by
  obtain ⟨⟨passed, hreads⟩, htaken⟩ := taken_of_token h
  have hcons := htaken.eq_cons_of_visible hch
  exact ⟨hcons, (hreads.of_unread (u := [ch]) hcons).last_eq (s := [])⟩

end Cursor

end ScriptMinifier
