import ScriptMinifier.Action
import ScriptMinifier.Cursor.Literal
import ScriptMinifier.Cursor.Token
import ScriptMinifier.Record

/-!
A run over one text. It holds a window of two tokens, the current one, whose fate is open, and
the upcoming one; what is behind the window is written or dropped, and what is before it is
unread.

Literals are copied as a whole as soon as their opening delimiter is the current token. Only
their closing delimiter is left to the window: it is then the current token.
-/

namespace ScriptMinifier

structure Run where
  cursor : Cursor
  /-- What is written so far. -/
  output : String
  /-- The token that is decided on, or none once the text is used up. -/
  current : Option Char
  /-- The token behind the current one, or none at the end of the text. -/
  upcoming : Option Char
  /-- The records so far, in order. -/
  log : Array Record
deriving Repr

/-- A run that met a fault, and what it had recorded by then. -/
structure Abort where
  fault : Fault
  log : Array Record

namespace Run

/-! ## 1. The parts of a step -/

/-- A text is read as if it stood on a line of its own. -/
def start (text : String) : Run :=
  { cursor := .ofText text, output := "", current := some '\n', upcoming := some '\n', log := #[] }

/-- Writes a token. A separator has nothing to separate while the output is empty. -/
def write (r : Run) (token : Char) : Run :=
  if r.output.isEmpty && (token == ' ' || token == '\n') then r
  else { r with output := r.output.push token }

/-- The run that makes use of what a scan has read, unless the scan met a fault. -/
def follow {α : Type} (log : Array Record) (s : Scan α) (use : α → Cursor → Run) :
    Except Abort Run :=
  match s.outcome with
  | .ok a => .ok (use a s.cursor)
  | .error fault => .error ⟨fault, log⟩

/-- Moves the window on, so that the upcoming token is the current one. If that opens a string
literal, the literal is written up to its closing quote, which is the same character. -/
def shift : Run → Except Abort Run
  | ⟨cursor, output, _, upcoming, log⟩ =>
    match upcoming with
    | some ch =>
      if CharClass.isQuote ch then
        follow log (cursor.copyString ch output) fun copied c => ⟨c, copied, some ch, some ch, log⟩
      else .ok ⟨cursor, output, some ch, some ch, log⟩
    | none => .ok ⟨cursor, output, none, none, log⟩

/-- Reads the next token into the window. -/
def readUpcoming (r : Run) : Except Abort Run :=
  follow r.log r.cursor.token fun token c => { r with upcoming := token, cursor := c }

/-- Writes the current token `opener` and the regular expression literal that it introduces, up
to the closing slash, which is then the current token. -/
def copyRegex (opener : Char) : Run → Except Abort Run
  | ⟨cursor, output, _, upcoming, log⟩ =>
    let noted := log.push (.regexAfter opener)
    follow noted (cursor.copyRegex ((output.push opener).push '/')) fun copied c =>
      ⟨c, copied, some '/', upcoming, noted⟩

/-- Reads the next token into the window, and if it opens a regular expression literal, copies
that and reads the token behind it. -/
def fetch (r : Run) : Except Abort Run := do
  let s ← r.readUpcoming
  match s.current, s.upcoming with
  | some ch, some '/' =>
    if CharClass.introducesRegex ch then (← copyRegex ch s).readUpcoming else .ok s
  | _, _ => .ok s

/-! ## 2. A whole step -/

/-- One step of a run whose current token is `current`. -/
def step (r : Run) (current : Char) : Except Abort Run := do
  match Action.choose current r.upcoming with
  | .emit => (← (r.write current).shift).fetch
  | .advance => (← r.shift).fetch
  | .fetch => r.fetch

end Run

end ScriptMinifier
