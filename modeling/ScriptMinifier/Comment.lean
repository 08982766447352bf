/-! Where a comment ends. -/

namespace ScriptMinifier.Comment

/-- Splits a text at the first star that has a slash behind it. The parts are what stands before
the two and what stands behind them. -/
def splitBlock? : List Char → Option (List Char × List Char)
  | [] => none
  | '*' :: '/' :: t => some ([], t)
  | ch :: t => (splitBlock? t).map fun (body, rest) => (ch :: body, rest)

/-- A comment's body and end are all that a split takes away. -/
theorem eq_append_of_splitBlock? {t body rest : List Char}
    (h : splitBlock? t = some (body, rest)) : t = body ++ '*' :: '/' :: rest := by
  fun_induction splitBlock? t generalizing body with
  | case1 => cases h
  | case2 t => cases h; rfl
  | case3 ch t _ ih =>
    obtain ⟨⟨b, r⟩, hsplit, heq⟩ := Option.map_eq_some_iff.mp h
    cases heq
    rw [ih hsplit]
    rfl

end ScriptMinifier.Comment
