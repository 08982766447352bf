import ScriptMinifier.Run.Finish

/-!
Minifying a script: comments and separators that nothing needs are dropped, and string and regular
expression literals are kept as they are.
-/

namespace ScriptMinifier

/-- The result of minifying a text, and the records of the run, in order. -/
structure Report where
  result : Except Fault String
  log : Array Record

/-- Minifies a text and tells how it went. The last record says how it ended. -/
def report (text : String) : Report :=
  match (Run.start text).fetch >>= Run.finish with
  | .ok r => ⟨.ok r.output, r.log.push (.minified text.utf8ByteSize r.output.utf8ByteSize)⟩
  | .error abort => ⟨.error abort.fault, abort.log.push (.aborted abort.fault)⟩

/-- Minifies a text. A text that leaves something open has no result. -/
def minify (text : String) : Except Fault String :=
  (report text).result

/-- Minifies a text, then the result, and so on, at most `n` times. A fault ends the row of
results. -/
def passes (text : String) : Nat → List (Except Fault String)
  | 0 => []
  | n + 1 =>
    match minify text with
    | .ok out => .ok out :: passes out n
    | .error fault => [.error fault]

end ScriptMinifier
