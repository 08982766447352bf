import ScriptMinifier.Position

/-! The one way in which a text can fail to minify: something that it opens is never closed. -/

namespace ScriptMinifier

/-- The constructs that have to be closed. -/
inductive Construct where
  | comment
  | string
  | regex
deriving DecidableEq, Repr

def Construct.name : Construct → String
  | .comment => "comment"
  | .string => "string literal"
  | .regex => "regular expression literal"

/-- A construct that was left open. A comment may not meet the end of the text before it is
closed, and a literal neither that nor a line break outside an escape. -/
structure Fault where
  construct : Construct
  /-- The place of the opening delimiter: the first slash, or the quote. -/
  opened : Position
deriving DecidableEq, Repr

def Fault.message (f : Fault) : String :=
  "unterminated " ++ f.construct.name ++ " at " ++ f.opened.text

end ScriptMinifier
