import ScriptMinifier.CharClass
import ScriptMinifier.Comment
import ScriptMinifier.Fault
import ScriptMinifier.Lexeme
import ScriptMinifier.LineBreak
import ScriptMinifier.Literal

/-!
Reading a text as a row of parts, from left to right.

What a slash means depends on the character that ends the nearest item before it, whatever
separates the two. A reading stops at the first construct that is left open. Up to there, the
parts spell out the text.
-/

namespace ScriptMinifier

structure Reading where
  lexemes : List Lexeme
  /-- The construct that is left open, if there is one, and the text from its opening delimiter
  on. -/
  leftOpen : Option (Construct × List Char)
deriving DecidableEq, Repr

namespace Reading

/-- The last character of the nearest item, once the part `x` has been read behind an item that
ends in `before`. -/
def behind (before : Option Char) : Lexeme → Option Char
  | .item i => some i.last
  | _ => before

/-- The first part of a text that stands behind an item ending in `before`, and the text that
follows the part, or else the construct that the text opens and does not close. -/
def first? (before : Option Char) : List Char → Option (Except Construct (Lexeme × List Char))
  | [] => none
  | '/' :: '/' :: t => some (.ok (.lineComment (t.takeWhile (· ≠ '\n')), t.dropWhile (· ≠ '\n')))
  | '/' :: '*' :: t => some <|
    match Comment.splitBlock? t with
    | some (body, rest) => .ok (.blockComment body, rest)
    | none => .error .comment
  | ch :: t => some <|
    if CharClass.isQuote ch then
      match Literal.split? ch t with
      | some (body, rest) => .ok (.item (.string ch body), rest)
      | none => .error .string
    else if ch = '/' ∧ before.any CharClass.introducesRegex then
      match Literal.split? '/' t with
      | some (body, rest) => .ok (.item (.regex body), rest)
      | none => .error .regex
    else if ch = '\n' then .ok (.newline, t)
    else if ch ≤ ' ' then .ok (.blank ch, t)
    else .ok (.item (.mark ch), t)

/-- A part spells the text that it was read from. -/
theorem eq_text_append_of_first? {before : Option Char} {t rest : List Char} {x : Lexeme}
    (h : first? before t = some (.ok (x, rest))) : t = x.text ++ rest := by
  unfold first? at h
  split at h
  · cases h
  · cases h
    simp [Lexeme.text]
  · rename_i u
    split at h
    · rename_i body v hsplit
      cases h
      simp [Lexeme.text, Comment.eq_append_of_splitBlock? hsplit]
    · cases h
  · rename_i ch u _ _
    split at h
    · split at h
      · rename_i body v hsplit
        cases h
        simp [Lexeme.text, Item.text, Literal.eq_append_of_split? hsplit]
      · cases h
    · split at h
      · rename_i hslash
        split at h
        · rename_i body v hsplit
          cases h
          simp [Lexeme.text, Item.text, Literal.eq_append_of_split? hsplit, hslash.1]
        · cases h
      · split at h
        · rename_i hnewline
          cases h
          simp [Lexeme.text, hnewline]
        · split at h <;> cases h <;> rfl

theorem length_lt_of_first? {before : Option Char} {t rest : List Char} {x : Lexeme}
    (h : first? before t = some (.ok (x, rest))) : rest.length < t.length := by
  rw [eq_text_append_of_first? h]
  cases x with
  | item i => cases i <;> simp [Lexeme.text, Item.text] <;> omega
  | blank => simp [Lexeme.text]
  | newline => simp [Lexeme.text]
  | lineComment => simp [Lexeme.text]; omega
  | blockComment => simp [Lexeme.text]; omega

/-- Reads a text that stands behind an item ending in `before`. -/
def read (before : Option Char) (t : List Char) : Reading :=
  match _h : first? before t with
  | none => ⟨[], none⟩
  | some (.error k) => ⟨[], some (k, t)⟩
  | some (.ok (x, rest)) =>
    let r := read (behind before x) rest
    ⟨x :: r.lexemes, r.leftOpen⟩
termination_by t.length
decreasing_by exact length_lt_of_first? _h

/-- Reads a whole text, with its line breaks normalised. -/
def ofText (text : String) : Reading := read none (LineBreak.normalize text.toList)

/-- The items of a reading, in order. -/
def items (r : Reading) : List Item := r.lexemes.filterMap Lexeme.item?

/-- For each regular expression of a row of items, the character that ends the item before it.
The row stands behind an item ending in `before`. -/
def introducers (before : Option Char) : List Item → List Char
  | [] => []
  | .regex _ :: is => before.toList ++ introducers (some '/') is
  | i :: is => introducers (some i.last) is

/-- The characters that introduce the regular expressions of a text, in order. The last of these
may be the one that is left open. -/
def openers (r : Reading) : List Char :=
  introducers none r.items ++
    match r.leftOpen with
    | some (.regex, _) => (r.items.getLast?.map Item.last).toList
    | _ => []

end Reading

end ScriptMinifier
