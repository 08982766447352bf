import ScriptMinifier.Cursor.Lookahead
import ScriptMinifier.Fault
import ScriptMinifier.Loop

/-!
Scanning with a cell. Whatever is longer than one character is read by asking for one character
after another. The character behind a slash, and in a comment the one behind a star, is looked at
before it is read, and then waits in the cell for whoever reads next.
-/

namespace ScriptMinifier.Lookahead

/-! ## 1. What is left to read -/

/-- The text that is still to be read, with its line breaks normalised. It begins with the
character in the cell. -/
def unread (s : Lookahead) : List Char :=
  s.cell.toList.map Prod.fst ++ LineBreak.normalize s.rest

theorem unread_of_read? {s t : Lookahead} {ch : Char} (h : s.read? = some (ch, t)) :
    s.unread = ch :: t.unread := by
  unfold read? at h
  split at h
  · rename_i x place hcell
    cases h
    simp [unread, hcell]
  · rename_i hcell
    obtain ⟨⟨x, u⟩, huncons, heq⟩ := Option.map_eq_some_iff.mp h
    cases heq
    simp [unread, hcell, LineBreak.normalize_eq_of_uncons? huncons]

-- Only a read takes something off the text.
theorem unread_length_lt {s t : Lookahead} {q : Query} {ch : Char} (hq : q ≠ .ahead)
    (h : s.ask q = (some ch, t)) : t.unread.length < s.unread.length := by
  cases hread : s.read? with
  | none => cases q <;> simp [ask, readFolded?, peek?, hread] at h
  | some p =>
    obtain ⟨x, u⟩ := p
    have hu : u = t := by
      cases q with
      | folded => simp_all [ask, readFolded?]
      | verbatim => simp_all [ask]
      | ahead => exact absurd rfl hq
    rw [unread_of_read? hread, hu]
    exact Nat.lt_succ_self _

theorem unread_ahead (s : Lookahead) : (s.ask .ahead).2.unread = s.unread := by
  cases hread : s.read? with
  | none => simp [ask, peek?, hread]
  | some p =>
    obtain ⟨ch, t⟩ := p
    have hcell : t.cell = none := by
      unfold read? at hread
      split at hread
      · cases hread
        rfl
      · obtain ⟨x, -, heq⟩ := Option.map_eq_some_iff.mp hread
        cases heq
        rfl
    rw [unread_of_read? hread]
    simp [ask, peek?, hread, unread, hcell]

/-! ## 2. Loops over the text -/

/-- Reads on through the next newline. The result is that newline, and none at the end of the
text. -/
def lineLoop : Loop Lookahead (Option Char × Lookahead) where
  round s :=
    match s.ask .folded with
    | (none, t) => .done (none, t)
    | (some ch, t) => if ch = '\n' then .done (some ch, t) else .again t
  left s := s.unread.length
  left_lt {s t} h := by
    split at h
    · cases h
    · rename_i ch u hask
      split at h
      · cases h
      · cases h
        exact unread_length_lt (by decide) hask

/-- Reads on through the next star that has a slash behind it, and through that slash. The result
tells whether there was one. -/
def blockLoop : Loop Lookahead (Bool × Lookahead) where
  round s :=
    match s.ask .folded with
    | (none, t) => .done (false, t)
    | (some ch, t) =>
      if ch = '*' then
        let (next, u) := t.ask .ahead
        if next = some '/' then .done (true, (u.ask .folded).2) else .again u
      else .again t
  left s := s.unread.length
  left_lt {s t} h := by
    split at h
    · cases h
    · rename_i ch u hask
      have hlt := unread_length_lt (by decide) hask
      split at h
      · simp only at h
        split at h
        · cases h
        · cases h
          rw [unread_ahead]
          exact hlt
      · cases h
        exact hlt

/-- Copies characters behind the text that it has, until `close` comes. A backslash takes the next
character with it, whatever that is. There is no result if a line break or the end of the text comes
first. -/
def copyLoop (close : Char) : Loop (Lookahead × String) (Option String × Lookahead) where
  round := fun (s, out) =>
    match s.ask .verbatim with
    | (none, t) => .done (none, t)
    | (some ch, t) =>
      if ch = close then .done (some out, t)
      else if ch = '\n' then .done (none, t)
      else if ch = '\\' then
        match t.ask .verbatim with
        | (none, u) => .done (none, u)
        | (some escaped, u) => .again (u, (out.push ch).push escaped)
      else .again (t, out.push ch)
  left s := s.1.unread.length
  left_lt {s t} h := by
    obtain ⟨s, out⟩ := s
    simp only at h
    split at h
    · cases h
    · rename_i ch u hask
      have hlt := unread_length_lt (by decide) hask
      split at h
      · cases h
      split at h
      · cases h
      split at h
      · split at h
        · cases h
        · rename_i escaped v hask'
          have hlt' := unread_length_lt (by decide) hask'
          cases h
          exact Nat.lt_trans hlt' hlt
      · cases h
        exact hlt

/-! ## 3. Tokens and literals -/

/-- Reads the next token; there is none at the end of the text. A comment is read as the newline
that ends it, or as a space. -/
def token (s : Lookahead) : Except Fault (Option Char) × Lookahead :=
  let (ch, t) := s.ask .folded
  if ch ≠ some '/' then (.ok ch, t)
  else
    let (next, u) := t.ask .ahead
    if next = some '/' then
      let (newline, v) := lineLoop.run u
      (.ok newline, v)
    else if next = some '*' then
      let (closed, v) := blockLoop.run (u.ask .folded).2
      (if closed then .ok (some ' ') else .error ⟨.comment, t.last⟩, v)
    else (.ok ch, u)

/-- Copies a literal of the kind `k`, without its delimiters. A fault names the place of the
character that was read last. -/
def copyLiteral (k : Construct) (close : Char) (s : Lookahead) (out : String) :
    Except Fault String × Lookahead :=
  let (copied, t) := (copyLoop close).run (s, out)
  (copied.elim (.error ⟨k, s.last⟩) .ok, t)

/-- Copies a string literal: the opening quote and the body. -/
def copyString (quote : Char) (s : Lookahead) (out : String) : Except Fault String × Lookahead :=
  s.copyLiteral .string quote (out.push quote)

/-- Copies the body of a regular expression literal. -/
def copyRegex (s : Lookahead) (out : String) : Except Fault String × Lookahead :=
  s.copyLiteral .regex '/' out

end ScriptMinifier.Lookahead
