import ScriptMinifier.CharClass

/-!
The decision on separators. A run looks at two tokens at a time, the current one, whose fate is
open, and the upcoming one, and takes one of three actions:

| current | upcoming                                                | action    |
|---------|---------------------------------------------------------|-----------|
| space   | a word character                                        | `emit`    |
| space   | anything else                                           | `advance` |
| newline | a space                                                 | `fetch`   |
| newline | a word character, or one that keeps a break before it   | `emit`    |
| newline | anything else                                           | `advance` |
| other   | a space behind a word character                         | `emit`    |
| other   | a newline behind a word character or one that keeps it  | `emit`    |
| other   | any other separator                                     | `fetch`   |
| other   | anything else                                           | `emit`    |
-/

namespace ScriptMinifier

inductive Action where
  /-- Write the current token, then go on to the upcoming one. -/
  | emit
  /-- Drop the current token and go on to the upcoming one. -/
  | advance
  /-- Drop the upcoming token. -/
  | fetch
deriving DecidableEq, Repr

/-- The action for a current and an upcoming token; at the end of the text none is upcoming. -/
def Action.choose (current : Char) (upcoming : Option Char) : Action :=
  if current = ' ' then
    if upcoming.any CharClass.isWord then emit else advance
  else if current = '\n' then
    if upcoming = some ' ' then fetch
    else if upcoming.any fun ch => CharClass.keepsBreakBefore ch || CharClass.isWord ch then emit
    else advance
  else if upcoming = some ' ' then
    if CharClass.isWord current then emit else fetch
  else if upcoming = some '\n' then
    if CharClass.keepsBreakAfter current || CharClass.isWord current then emit else fetch
  else emit

/-- Only a token can be dropped: at the end of the text nothing is fetched. -/
theorem Action.choose_none_ne_fetch (current : Char) : choose current none ≠ .fetch := by
  by_cases hspace : current = ' '
  · simp [choose, hspace]
  · by_cases hnewline : current = '\n' <;> simp [choose, hspace, hnewline]

end ScriptMinifier
