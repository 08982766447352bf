import ScriptMinifier.CharClass
import ScriptMinifier.LineBreak

/-!
A cursor reads a text from left to right, one character at a time, and knows where in the text
it is. Line breaks of any style are read as newlines.

Characters come either verbatim, as literals need them, or with control characters folded to
spaces. A look ahead leaves the cursor as it is.
-/

namespace ScriptMinifier

structure Cursor where
  /-- The text that is still to be read, as it was given. -/
  rest : List Char
  /-- The place of the first character of `rest`. -/
  next : Position
  /-- The place of the character that was read last, or of the start before any. -/
  last : Position
deriving DecidableEq, Repr

namespace Cursor

def ofText (text : String) : Cursor := ⟨text.toList, .start, .start⟩

/-- Reads one character verbatim. At the end of the text there is none, and the cursor stays. -/
def read? (c : Cursor) : Option (Char × Cursor) :=
  (LineBreak.uncons? c.rest).map fun (ch, t) => (ch, ⟨t, c.next.after ch, c.next⟩)

/-- Reads one character with control characters folded. -/
def readFolded? (c : Cursor) : Option (Char × Cursor) :=
  c.read?.map fun (ch, d) => (CharClass.foldControl ch, d)

/-- The folded character that the next read returns. -/
def peek? (c : Cursor) : Option Char :=
  c.readFolded?.map Prod.fst

theorem read?_eq_none_iff {c : Cursor} : c.read? = none ↔ c.rest = [] := by
  simp only [read?, Option.map_eq_none_iff]
  unfold LineBreak.uncons?
  split <;> simp_all

theorem rest_length_lt_of_read? {c d : Cursor} {ch : Char} (h : c.read? = some (ch, d)) :
    d.rest.length < c.rest.length := by
  simp only [read?, Option.map_eq_some_iff] at h
  obtain ⟨⟨x, t⟩, ht, hd⟩ := h
  cases hd
  exact LineBreak.length_lt_of_uncons? ht

/-- A read takes the first character off the normalised text. -/
theorem normalize_rest_of_read? {c d : Cursor} {ch : Char} (h : c.read? = some (ch, d)) :
    LineBreak.normalize c.rest = ch :: LineBreak.normalize d.rest := by
  simp only [read?, Option.map_eq_some_iff] at h
  obtain ⟨⟨x, t⟩, ht, hd⟩ := h
  cases hd
  exact LineBreak.normalize_eq_of_uncons? ht

end Cursor

end ScriptMinifier
