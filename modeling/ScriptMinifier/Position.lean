/-! Places in a text: lines and columns count from one, and a column counts characters. -/

namespace ScriptMinifier

structure Position where
  line : Nat
  column : Nat
deriving DecidableEq, Repr

namespace Position

/-- The place of the first character of a text. -/
def start : Position := ⟨1, 1⟩

/-- The place that follows the character `c` standing at `p`. Only a newline starts a line, so
line endings have to be normalised first. -/
def after (p : Position) (c : Char) : Position :=
  if c = '\n' then ⟨p.line + 1, 1⟩ else ⟨p.line, p.column + 1⟩

@[simp] theorem after_newline (p : Position) : p.after '\n' = ⟨p.line + 1, 1⟩ := rfl

theorem after_of_ne {p : Position} {c : Char} (h : c ≠ '\n') :
    p.after c = ⟨p.line, p.column + 1⟩ := by
  simp [after, h]

/-- Positions as messages show them: the line, a colon and the column. -/
def text (p : Position) : String := toString p.line ++ ":" ++ toString p.column

end Position

end ScriptMinifier
