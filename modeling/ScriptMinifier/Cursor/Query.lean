import ScriptMinifier.Cursor.Basic

/-! Asking a cursor for one character after another, in any of the three ways there are. -/

namespace ScriptMinifier

inductive Query where
  /-- Read a character, folded. -/
  | folded
  /-- Read a character as it is. -/
  | verbatim
  /-- Look at the next character, folded, without reading it. -/
  | ahead
deriving DecidableEq, Repr

/-- What a query brings: a character, unless the text is at its end, and the place of the
character that was read last. -/
structure Answer where
  char : Option Char
  last : Position
deriving DecidableEq, Repr

namespace Cursor

/-- The character that a query brings, and the cursor behind it. -/
def ask (c : Cursor) : Query → Option Char × Cursor
  | .folded => c.readFolded?.elim (none, c) fun (ch, d) => (some ch, d)
  | .verbatim => c.read?.elim (none, c) fun (ch, d) => (some ch, d)
  | .ahead => (c.peek?, c)

/-- The answers to a row of queries, each asked where the one before it left the cursor. -/
def answers (c : Cursor) : List Query → List Answer
  | [] => []
  | q :: qs =>
    let (char, d) := c.ask q
    ⟨char, d.last⟩ :: d.answers qs

end Cursor

end ScriptMinifier
