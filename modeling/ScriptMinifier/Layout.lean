import ScriptMinifier.CharClass
import ScriptMinifier.Lexeme

/-!
Layout: the shortest way to write a row of parts. Whether a gap between two items is kept, and
how it is written, depends on its kind and on the two characters next to it, and on nothing else.
-/

namespace ScriptMinifier.Layout

/-- Whether a line break between `l` and `r` can matter. -/
def keepsBreak (l r : Char) : Bool :=
  (CharClass.keepsBreakAfter l || CharClass.isWord l) &&
    (CharClass.keepsBreakBefore r || CharClass.isWord r)

/-- Whether `l` and `r` would run together without a space between them. -/
def keepsSpace (l r : Char) : Bool :=
  CharClass.isWord l && CharClass.isWord r

/-- What is written for a gap between an item that ends in `l` and one that begins with `r`. -/
def separator (l r : Char) : Gap → List Char
  | .none => []
  | .space => if keepsSpace l r then [' '] else []
  | .newline => if keepsBreak l r then ['\n'] else []

/-- Writes the items of a row of parts. The last item before the row, if there is one, ends in
`before`, and `gap` has opened up since. A gap is only written between two items. -/
def write (before : Option Char) (gap : Gap) : List Lexeme → List Char
  | [] => []
  | .item i :: xs =>
    before.elim [] (separator · i.first gap) ++ i.text ++ write (some i.last) .none xs
  | x :: xs => write before (gap.join x.gap) xs

/-- The shortest way to write a row of parts. -/
def compact (xs : List Lexeme) : String :=
  String.ofList (write none .none xs)

end ScriptMinifier.Layout
