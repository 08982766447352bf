/-!
The character classes on which every decision about separators and slashes rests.

All classes are sets of single characters; none of them looks at the text around a character.
-/

namespace ScriptMinifier.CharClass

/-- Word characters make up names, numbers and keywords: ASCII letters and digits, `_`, `$`, the
backslash of an escape in a name, and everything above the tilde. Two of them must not become
neighbours unless they were. -/
def isWord (c : Char) : Bool :=
  '~' < c || c == '\\' || c == '_' || c == '$' || c.isAlphanum

/-- The characters after which a slash opens a regular expression and does not divide. -/
def introducesRegex (c : Char) : Bool :=
  c ∈ ['(', ',', '=', ':', '[', '!', '&', '|', '?']

/-- The characters that keep a line break standing in front of them. -/
def keepsBreakBefore (c : Char) : Bool :=
  c ∈ ['{', '[', '(', '+', '-']

/-- The characters that keep a line break standing behind them. -/
def keepsBreakAfter (c : Char) : Bool :=
  c ∈ ['}', ']', ')', '+', '-', '"', '\'']

def isQuote (c : Char) : Bool :=
  c ∈ ['\'', '"']

/-- Outside of literals a control character is as good as a space; a newline stays. -/
def foldControl (c : Char) : Char :=
  if c < ' ' && c != '\n' then ' ' else c

@[simp] theorem foldControl_newline : foldControl '\n' = '\n' := rfl

theorem foldControl_of_le {c : Char} (h : ' ' ≤ c) : foldControl c = c := by
  simp [foldControl, Char.not_lt.mpr h]

end ScriptMinifier.CharClass
