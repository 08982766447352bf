import ScriptMinifier.Position

/-!
Line endings. A carriage return, a newline, and a carriage return with the newline right behind
it are each one line break; read as a character, a line break is a newline.

`uncons?` takes one character off a text, `normalize` reads a whole text, and `following`
says where a text that comes after another one begins.
-/

namespace ScriptMinifier.LineBreak

/-- The first character of a text, a line break of any style being a newline, and the rest. -/
def uncons? : List Char → Option (Char × List Char)
  | [] => none
  | '\r' :: '\n' :: t => some ('\n', t)
  | '\r' :: t => some ('\n', t)
  | c :: t => some (c, t)

theorem length_lt_of_uncons? {t u : List Char} {c : Char} (h : uncons? t = some (c, u)) :
    u.length < t.length := by
  unfold uncons? at h
  split at h
  · cases h
  all_goals
    cases h
    simp only [List.length_cons]
    omega

/-- The text with every line break written as a newline. -/
def normalize : List Char → List Char
  | [] => []
  | '\r' :: '\n' :: t => '\n' :: normalize t
  | '\r' :: t => '\n' :: normalize t
  | c :: t => c :: normalize t

/-- Taking off characters one by one spells the normalised text. -/
theorem normalize_eq_of_uncons? {t u : List Char} {c : Char} (h : uncons? t = some (c, u)) :
    normalize t = c :: normalize u := by
  unfold uncons? at h
  split at h <;> simp at h <;> obtain ⟨rfl, rfl⟩ := h
  · rw [normalize]
  · rename_i hcrlf
    rw [normalize]
    exact hcrlf
  · rename_i hcrlf hcr
    rw [normalize]
    · exact hcrlf
    · exact hcr

/-- The number of line breaks of a text. -/
def count (t : List Char) : Nat := (normalize t).count '\n'

/-- What a text has after its last line break. -/
def lastLine (t : List Char) : List Char :=
  ((normalize t).reverse.takeWhile (· ≠ '\n')).reverse

/-- Where a text begins that follows `t`: one line further for each line break of `t`, and one
column further for each character since the last. -/
def following (t : List Char) : Position :=
  ⟨1 + count t, 1 + (lastLine t).length⟩

end ScriptMinifier.LineBreak
