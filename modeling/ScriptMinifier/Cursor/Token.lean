import ScriptMinifier.Cursor.Scan

/-!
Tokens: single characters, with comments already collapsed to the separator that they stand for.

A comment that runs to the end of its line is read as the newline that ends it, and a bracketed
comment as a space. Every other character is read as itself, control characters as spaces.
-/

namespace ScriptMinifier.Cursor

/-! ## 1. Skipping comments -/

/-- Reads on through the next newline. The result is that newline, and none at the end of the
text. -/
def skipLine (c : Cursor) : Option Char × Cursor :=
  match _h : c.read? with
  | none => (none, c)
  | some (ch, d) => if ch = '\n' then (some ch, d) else d.skipLine
termination_by c.rest.length
decreasing_by exact rest_length_lt_of_read? _h

/-- Reads a slash, if the next character is one. -/
def readSlash? (c : Cursor) : Option Cursor :=
  match c.read? with
  | some ('/', d) => some d
  | _ => none

/-- Reads on through the next star that has a slash behind it, and through that slash. The
result tells whether there was one. -/
def skipBlock (c : Cursor) : Bool × Cursor :=
  match _h : c.read? with
  | none => (false, c)
  | some (ch, d) =>
    match if ch = '*' then d.readSlash? else none with
    | some e => (true, e)
    | none => d.skipBlock
termination_by c.rest.length
decreasing_by exact rest_length_lt_of_read? _h

theorem skipLine_rest_length_le (c : Cursor) :
    c.skipLine.2.rest.length ≤ c.rest.length := by
  fun_induction skipLine c with
  | case1 => simp
  | case2 c d h => exact Nat.le_of_lt (rest_length_lt_of_read? h)
  | case3 c ch d h _ ih => exact Nat.le_trans ih (Nat.le_of_lt (rest_length_lt_of_read? h))

theorem read?_of_readSlash? {c d : Cursor} (h : c.readSlash? = some d) :
    c.read? = some ('/', d) := by
  unfold readSlash? at h
  split at h
  · rename_i hc
    rw [hc, Option.some.inj h]
  · simp at h

theorem skipBlock_rest_length_le (c : Cursor) :
    c.skipBlock.2.rest.length ≤ c.rest.length := by
  fun_induction skipBlock c with
  | case1 => simp
  | case2 c ch d hc e he =>
    have hd : d.readSlash? = some e := by simp_all
    have := rest_length_lt_of_read? (read?_of_readSlash? hd)
    have := rest_length_lt_of_read? hc
    show e.rest.length ≤ c.rest.length
    omega
  | case3 c ch d hc _ ih =>
    have := rest_length_lt_of_read? hc
    omega

/-! ## 2. The next token -/

/-- Reads the next token; there is none at the end of the text. The character behind a slash
decides whether a comment begins there, and if none does, it is left unread. -/
def token (c : Cursor) : Scan (Option Char) :=
  match c.read? with
  | none => ⟨.ok none, c⟩
  | some ('/', d) =>
    match d.read? with
    | some ('/', e) => ⟨.ok e.skipLine.1, e.skipLine.2⟩
    | some ('*', e) =>
      match e.skipBlock with
      | (true, f) => ⟨.ok (some ' '), f⟩
      | (false, f) => ⟨.error ⟨.comment, d.last⟩, f⟩
    | _ => ⟨.ok (some '/'), d⟩
  | some (ch, d) => ⟨.ok (some (CharClass.foldControl ch)), d⟩

/-- A token is read from the text: the end of the text apart, every call takes something off. -/
theorem token_rest_length_lt {c : Cursor} (h : c.rest ≠ []) :
    c.token.cursor.rest.length < c.rest.length := by
  unfold token
  split
  · rename_i hc
    exact absurd (read?_eq_none_iff.mp hc) h
  · rename_i d hc
    have hcd := rest_length_lt_of_read? hc
    split
    · rename_i e hd
      have := rest_length_lt_of_read? hd
      have := skipLine_rest_length_le e
      simp only
      omega
    · rename_i e hd
      have := rest_length_lt_of_read? hd
      have := skipBlock_rest_length_le e
      split <;> simp_all <;> omega
    · exact hcd
  · rename_i hc
    exact rest_length_lt_of_read? hc

theorem token_of_rest_eq_nil {c : Cursor} (h : c.rest = []) : c.token = ⟨.ok none, c⟩ := by
  simp [token, read?_eq_none_iff.mpr h]

/-- The token and what is left to read are together no longer than the text was. -/
theorem token_length_le {c : Cursor} {t : Option Char} (h : c.token.outcome = .ok t) :
    t.toList.length + c.token.cursor.rest.length ≤ c.rest.length := by
  by_cases hc : c.rest = []
  · rw [token_of_rest_eq_nil hc] at h ⊢
    cases h
    simp
  · have := token_rest_length_lt hc
    cases t <;> simp <;> omega

end ScriptMinifier.Cursor
