/-!
What may stand between the delimiters of a string or of a regular expression.

The two kinds of literal differ in their delimiter only. A body is a row of units, and a
backslash makes a unit of itself and the next character, so that an escaped delimiter or line
break does not end the literal.
-/

namespace ScriptMinifier.Literal

/-- The bodies of literals that the delimiter `close` ends. -/
inductive Body (close : Char) : List Char → Prop where
  | nil : Body close []
  | plain {ch : Char} {body : List Char} (not_close : ch ≠ close) (not_escape : ch ≠ '\\')
      (not_newline : ch ≠ '\n') (rest : Body close body) : Body close (ch :: body)
  | escape (ch : Char) {body : List Char} (rest : Body close body) :
      Body close ('\\' :: ch :: body)

/-- Splits a text at the first delimiter that is not escaped. The parts are the body before it
and what stands behind it. -/
def split? (close : Char) : List Char → Option (List Char × List Char)
  | [] => none
  | ch :: t =>
    if ch = close then some ([], t)
    else if ch = '\n' then none
    else if ch = '\\' then
      match t with
      | [] => none
      | escaped :: u => (split? close u).map fun (body, rest) => (ch :: escaped :: body, rest)
    else (split? close t).map fun (body, rest) => (ch :: body, rest)

/-- The body and its delimiter are all that a split takes away. -/
theorem eq_append_of_split? {close : Char} {t body rest : List Char}
    (h : split? close t = some (body, rest)) : t = body ++ close :: rest := by
  fun_induction split? close t generalizing body with
  | case1 => cases h
  | case2 t => cases h; rfl
  | case3 t => cases h
  | case4 => cases h
  | case5 escaped u hclose hnewline ih =>
    obtain ⟨⟨b, r⟩, hsplit, heq⟩ := Option.map_eq_some_iff.mp h
    cases heq
    rw [ih hsplit]
    rfl
  | case6 ch t hclose hnewline hescape ih =>
    obtain ⟨⟨b, r⟩, hsplit, heq⟩ := Option.map_eq_some_iff.mp h
    cases heq
    rw [ih hsplit]
    rfl

end ScriptMinifier.Literal
