import ScriptMinifier.Layout

/-!
What a layout writes for a gap. In front of the first item it writes nothing, and a gap that the
item before it does not keep is as good as none.
-/

namespace ScriptMinifier

@[simp] theorem Gap.none_join (g : Gap) : Gap.none.join g = g := by
  cases g <;> rfl

@[simp] theorem Gap.join_none (g : Gap) : g.join .none = g := by
  cases g <;> rfl

@[simp] theorem Gap.join_newline (g : Gap) : g.join .newline = .newline := by
  cases g <;> rfl

-- Of two gaps in a row one counts, and a newline is not the one that gives way.
theorem Gap.join_eq (g k : Gap) : g.join k = k ∨ g.join k = g ∧ k ≠ .newline := by
  cases g <;> cases k <;> decide

namespace Layout

theorem write_item (before : Option Char) (gap : Gap) (i : Item) (xs : List Lexeme) :
    write before gap (.item i :: xs) =
      before.elim [] (separator · i.first gap) ++ i.text ++ write (some i.last) .none xs := by
  rw [write]

theorem elim_separator_none (before : Option Char) (r : Char) :
    before.elim [] (separator · r .none) = [] := by
  cases before <;> rfl

theorem write_of_item?_eq_none {x : Lexeme} (h : x.item? = none) (before : Option Char)
    (gap : Gap) (xs : List Lexeme) :
    write before gap (x :: xs) = write before (gap.join x.gap) xs := by
  rw [write]
  rintro i rfl
  cases h

-- In front of the first item the gap does not matter.
theorem write_none (g k : Gap) (xs : List Lexeme) : write none g xs = write none k xs := by
  induction xs generalizing g k with
  | nil => rfl
  | cons x xs ih =>
    cases hx : x.item? with
    | none => rw [write_of_item?_eq_none hx, write_of_item?_eq_none hx, ih]
    | some i =>
      cases x <;> cases hx
      rw [write_item, write_item]
      rfl

/-- The last character of the last item and the gap that has opened up since, once the row `xs`
has been written behind `before` and `gap`. -/
def reached (before : Option Char) (gap : Gap) : List Lexeme → Option Char × Gap
  | [] => (before, gap)
  | .item i :: xs => reached (some i.last) .none xs
  | x :: xs => reached before (gap.join x.gap) xs

-- Two rows are written one after the other.
theorem write_append (before : Option Char) (gap : Gap) (xs ys : List Lexeme) :
    write before gap (xs ++ ys) =
      write before gap xs ++ write (reached before gap xs).1 (reached before gap xs).2 ys := by
  fun_induction reached before gap xs with
  | case1 => rfl
  | case2 before gap i xs ih =>
    rw [List.cons_append, write_item, write_item, ih, ← List.append_assoc]
  | case3 before gap x xs hx ih =>
    have hnone := Lexeme.item?_eq_none hx
    rw [List.cons_append, write_of_item?_eq_none hnone, write_of_item?_eq_none hnone, ih]

theorem separator_eq_nil {l : Char} {gap : Gap} (hword : CharClass.isWord l = false)
    (hkeeps : gap = .newline → CharClass.keepsBreakAfter l = false) (r : Char) :
    separator l r gap = [] := by
  cases gap with
  | none => rfl
  | space => simp [separator, keepsSpace, hword]
  | newline => simp [separator, keepsBreak, hword, hkeeps rfl]

-- A gap that is not kept by the item before it can be left out.
theorem write_of_dropped {l : Char} {gap : Gap} (hword : CharClass.isWord l = false)
    (hkeeps : gap = .newline → CharClass.keepsBreakAfter l = false) (xs : List Lexeme) :
    write (some l) gap xs = write (some l) .none xs := by
  induction xs generalizing gap with
  | nil => rfl
  | cons x xs ih =>
    cases hx : x.item? with
    | none =>
      rw [write_of_item?_eq_none hx, write_of_item?_eq_none hx, Gap.none_join]
      rcases Gap.join_eq gap x.gap with hjoin | ⟨hjoin, hne⟩
      · rw [hjoin]
      · rw [hjoin, ih hkeeps, ih (fun h => absurd h hne)]
    | some i =>
      cases x <;> cases hx
      rw [write_item, write_item, Option.elim_some, Option.elim_some,
        separator_eq_nil hword hkeeps]
      rfl

end Layout

end ScriptMinifier
