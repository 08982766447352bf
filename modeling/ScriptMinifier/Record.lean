import ScriptMinifier.Fault

/-! What a run reports while it works. -/

namespace ScriptMinifier

/-- How much a reader has to care about a record. -/
inductive Level where
  | trace
  | debug
deriving DecidableEq, Repr

inductive Record where
  /-- A slash behind the character `opener` was taken to open a regular expression. -/
  | regexAfter (opener : Char)
  /-- A text was minified, with its sizes in UTF-8 bytes before and after. -/
  | minified (before after : Nat)
  /-- A text was given up. -/
  | aborted (fault : Fault)
deriving DecidableEq, Repr

namespace Record

def level : Record → Level
  | regexAfter _ => .trace
  | minified _ _ => .debug
  | aborted _ => .debug

def message : Record → String
  | regexAfter opener => "regular expression literal after '" ++ opener.toString ++ "'"
  | minified before after =>
    "minified " ++ toString before ++ " bytes into " ++ toString after
  | aborted fault => "minification aborted: " ++ fault.message

end Record

end ScriptMinifier
