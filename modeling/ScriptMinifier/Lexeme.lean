/-!
The parts of a text. Items carry its meaning: literals and single characters. Everything between
them only separates: blanks, newlines and comments.
-/

namespace ScriptMinifier

/-- What counts in a text. A slash that opens no literal is a mark like any other. -/
inductive Item where
  | string (quote : Char) (body : List Char)
  | regex (body : List Char)
  | mark (ch : Char)
deriving DecidableEq, Repr

namespace Item

def text : Item → List Char
  | string quote body => quote :: (body ++ [quote])
  | regex body => '/' :: (body ++ ['/'])
  | mark ch => [ch]

/-- The first character of an item. -/
def first : Item → Char
  | string quote _ => quote
  | regex _ => '/'
  | mark ch => ch

/-- The last character of an item. -/
def last : Item → Char
  | string quote _ => quote
  | regex _ => '/'
  | mark ch => ch

end Item

/-- How two items can be set apart. -/
inductive Gap where
  | none
  | space
  | newline
deriving DecidableEq, Repr

/-- Separators in a row make one gap, and a newline in it counts for more than spaces. -/
def Gap.join : Gap → Gap → Gap
  | newline, _ => newline
  | _, newline => newline
  | space, _ => space
  | none, g => g

/-- A part of a text. -/
inductive Lexeme where
  | item (i : Item)
  /-- A space, or a control character that is as good as one. -/
  | blank (ch : Char)
  | newline
  /-- A comment that the end of its line ends; the newline is not part of it. -/
  | lineComment (body : List Char)
  /-- A comment between brackets. -/
  | blockComment (body : List Char)
deriving DecidableEq, Repr

namespace Lexeme

def text : Lexeme → List Char
  | item i => i.text
  | blank ch => [ch]
  | newline => ['\n']
  | lineComment body => '/' :: '/' :: body
  | blockComment body => '/' :: '*' :: (body ++ ['*', '/'])

/-- The text with a comment replaced by what it stands for: nothing, if the newline behind it
separates anyway, and otherwise a space. -/
def plain : Lexeme → List Char
  | lineComment _ => []
  | blockComment _ => [' ']
  | x => x.text

def item? : Lexeme → Option Item
  | item i => some i
  | _ => none

theorem item?_eq_none {x : Lexeme} (h : ∀ i, x = .item i → False) : x.item? = none := by
  cases x with
  | item i => exact (h i rfl).elim
  | blank => rfl
  | newline => rfl
  | lineComment => rfl
  | blockComment => rfl

def isComment : Lexeme → Bool
  | lineComment _ => true
  | blockComment _ => true
  | _ => false

/-- The gap that a part leaves if it stands between two items. -/
def gap : Lexeme → Gap
  | blank _ => .space
  | newline => .newline
  | blockComment _ => .space
  | _ => .none

end Lexeme

end ScriptMinifier
