import ScriptMinifier.Lexeme
import ScriptMinifier.Run.Finish

/-!
What a run recognises in its text, in order. Each part is told from the call that took it off the
text and from the characters that the call passed over.

A visible token is no part yet when it is read, as it may open a literal. It becomes one when it
is the current token, or when the literal is copied.
-/

namespace ScriptMinifier

/-- The characters, with line breaks normalised, that lie between two places. -/
def Cursor.passed (c d : Cursor) : List Char :=
  let t := LineBreak.normalize c.rest
  t.take (t.length - (LineBreak.normalize d.rest).length)

/-- The separators and comments that a token was read from, if these are the characters that it
was read from. More than one is a comment, of the kind that its second character tells. -/
def Lexeme.ofPassed : List Char → List Lexeme
  | [] => []
  | [ch] => if ch = '\n' then [.newline] else if ch ≤ ' ' then [.blank ch] else []
  | _ :: second :: t =>
    if second = '*' then [.blockComment (t.take (t.length - 2))]
    else .lineComment (t.takeWhile (· ≠ '\n')) :: if '\n' ∈ t then [.newline] else []

/-- What the next token is read from, unless that is a visible character. -/
def Cursor.tokenParts (c : Cursor) : List Lexeme :=
  Lexeme.ofPassed (c.passed c.token.cursor)

namespace Run

/-- What becomes of the upcoming token when the window moves on. -/
def shiftParts (r : Run) : List Lexeme :=
  match r.upcoming with
  | some ch =>
    if CharClass.isQuote ch then
      let copy := r.cursor.copyString ch r.output
      [.item (.string ch (r.cursor.passed copy.cursor).dropLast)]
    else if ' ' < ch then [.item (.mark ch)]
    else []
  | none => []

/-- A regular expression that opens at the upcoming token, and what the token behind it was read
from. -/
def regexParts (r : Run) : List Lexeme :=
  match r.current, r.upcoming with
  | some ch, some '/' =>
    if CharClass.introducesRegex ch then
      let copy := r.cursor.copyRegex ((r.output.push ch).push '/')
      .item (.regex (r.cursor.passed copy.cursor).dropLast) :: copy.cursor.tokenParts
    else []
  | _, _ => []

def fetchParts (r : Run) : List Lexeme :=
  r.cursor.tokenParts ++ r.readUpcoming.toOption.elim [] regexParts

/-- What a step recognises, if it goes through. -/
def stepParts (r : Run) (current : Char) : List Lexeme :=
  match Action.choose current r.upcoming with
  | .emit =>
    (r.write current).shiftParts ++ (r.write current).shift.toOption.elim [] fetchParts
  | .advance => r.shiftParts ++ r.shift.toOption.elim [] fetchParts
  | .fetch => r.fetchParts

/-- What the steps of a run recognise, up to its end or to the step that fails. -/
def parts (r : Run) : List Lexeme :=
  match _h : r.current with
  | none => []
  | some current =>
    match _h' : r.step current with
    | .error _ => []
    | .ok s => r.stepParts current ++ s.parts
termination_by r.ahead
decreasing_by exact step_ahead _h _h'

/-- What the run over a text recognises. -/
def transcript (text : String) : List Lexeme :=
  (start text).fetchParts ++ (start text).fetch.toOption.elim [] parts

/-- The items among them. -/
def items (text : String) : List Item := (transcript text).filterMap Lexeme.item?

end Run

end ScriptMinifier
