import ScriptMinifier.Cursor.Query

/-!
Looking ahead by reading. The character that was looked at waits in a cell, unfolded and together
with its place, and the next read takes it from there. What the cell was read from is then no
longer a part of the text that is left.
-/

namespace ScriptMinifier

structure Lookahead where
  /-- The text behind the character in the cell, as it was given. -/
  rest : List Char
  /-- The character that was looked at and not read since, and its place. -/
  cell : Option (Char × Position)
  /-- The place of the first character of `rest`. -/
  next : Position
  /-- The place of the character that was read last, or of the start before any. -/
  last : Position
deriving DecidableEq, Repr

namespace Lookahead

def ofText (text : String) : Lookahead := ⟨text.toList, none, .start, .start⟩

/-- Reads one character verbatim, from the cell if there is one in it. At the end of the text there
is none, and nothing changes. -/
def read? (s : Lookahead) : Option (Char × Lookahead) :=
  match s.cell with
  | some (ch, place) => some (ch, { s with cell := none, last := place })
  | none => (LineBreak.uncons? s.rest).map fun (ch, t) => (ch, ⟨t, none, s.next.after ch, s.next⟩)

/-- Reads one character with control characters folded. -/
def readFolded? (s : Lookahead) : Option (Char × Lookahead) :=
  s.read?.map fun (ch, t) => (CharClass.foldControl ch, t)

/-- Reads one character and puts it into the cell. It is folded in the answer only, and the place
of the character that was read last stays what it was. -/
def peek? (s : Lookahead) : Option (Char × Lookahead) :=
  s.read?.map fun (ch, t) =>
    (CharClass.foldControl ch, { t with cell := some (ch, t.last), last := s.last })

/-- The character that a query brings, and the state behind it. -/
def ask (s : Lookahead) : Query → Option Char × Lookahead
  | .folded => s.readFolded?.elim (none, s) fun (ch, t) => (some ch, t)
  | .verbatim => s.read?.elim (none, s) fun (ch, t) => (some ch, t)
  | .ahead => s.peek?.elim (none, s) fun (ch, t) => (some ch, t)

end Lookahead

end ScriptMinifier
