import ScriptMinifier.Cursor.Scan

/-!
Copying literals. The opening delimiter is the character that was read last, and a fault names
its place. The closing delimiter is read and not copied.
-/

namespace ScriptMinifier.Cursor

/-- Copies characters behind `out` until `close` comes. A backslash takes the next character
with it, whatever that is. There is no result if a line break or the end of the text comes
first. -/
def copyBody (close : Char) (c : Cursor) (out : String) : Option String × Cursor :=
  match _h : c.read? with
  | none => (none, c)
  | some (ch, d) =>
    if ch = close then (some out, d)
    else if ch = '\n' then (none, d)
    else if ch = '\\' then
      match _h' : d.read? with
      | none => (none, d)
      | some (escaped, e) => e.copyBody close ((out.push ch).push escaped)
    else d.copyBody close (out.push ch)
termination_by c.rest.length
decreasing_by
  · exact Nat.lt_trans (rest_length_lt_of_read? _h') (rest_length_lt_of_read? _h)
  · exact rest_length_lt_of_read? _h

theorem copyBody_rest_length_le (close : Char) (c : Cursor) (out : String) :
    (c.copyBody close out).2.rest.length ≤ c.rest.length := by
  fun_induction copyBody close c out with
  | case1 => exact Nat.le_refl _
  | case2 c out d h => exact Nat.le_of_lt (rest_length_lt_of_read? h)
  | case3 c out d h _ => exact Nat.le_of_lt (rest_length_lt_of_read? h)
  | case4 c out d _ h => exact Nat.le_of_lt (rest_length_lt_of_read? h)
  | case5 c out d escaped e h' h _ _ ih =>
    have := rest_length_lt_of_read? h
    have := rest_length_lt_of_read? h'
    omega
  | case6 c out ch d h _ _ _ ih =>
    have := rest_length_lt_of_read? h
    omega

/-- Copies a literal of the kind `k`, without its delimiters. -/
def copyLiteral (k : Construct) (close : Char) (c : Cursor) (out : String) : Scan String :=
  match c.copyBody close out with
  | (some copied, d) => ⟨.ok copied, d⟩
  | (none, d) => ⟨.error ⟨k, c.last⟩, d⟩

/-- Copies a string literal: the opening quote and the body. -/
def copyString (quote : Char) (c : Cursor) (out : String) : Scan String :=
  c.copyLiteral .string quote (out.push quote)

/-- Copies the body of a regular expression literal. -/
def copyRegex (c : Cursor) (out : String) : Scan String :=
  c.copyLiteral .regex '/' out

theorem copyLiteral_rest_length_le (k : Construct) (close : Char) (c : Cursor) (out : String) :
    (c.copyLiteral k close out).cursor.rest.length ≤ c.rest.length := by
  have := copyBody_rest_length_le close c out
  unfold copyLiteral
  split <;> simp_all

end ScriptMinifier.Cursor
