import ScriptMinifier.Cursor.Basic
import ScriptMinifier.Fault

/-! The result of reading something longer than one character. -/

namespace ScriptMinifier

/-- What was read, or what was found open, and the place where reading stopped. A fault has such
a place too, and reading can go on from there. -/
structure Scan (α : Type) where
  outcome : Except Fault α
  cursor : Cursor

end ScriptMinifier
