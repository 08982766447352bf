import ScriptMinifier.Proofs.Rereading
import ScriptMinifier.Proofs.Transcript

/-!
Texts without their comments. A comment is worth what it stands for, and putting that in its place
neither makes a comment of what is next to it nor changes how anything else is read.
-/

namespace ScriptMinifier

/-! ## 1. Taking the comments out -/

/-- The text `t`, which begins with the parts `xs`, as it was given but for the comments among
them: each is replaced by what it stands for. -/
def Lexeme.withoutComments : List Lexeme → List Char → List Char
  | [], t => t
  | x :: xs, t =>
    let parts := LineBreak.splitAt x.text.length t
    (if x.isComment then x.plain else parts.1) ++ withoutComments xs parts.2

/-- A text without the comments that its run recognises. -/
def Run.withoutComments (text : String) : String :=
  String.ofList (Lexeme.withoutComments (transcript text) text.toList)

-- Only a newline is read from a text that ends in a carriage return.
theorem Lexeme.getLast?_ne_return {before : Option Char} {rest own : List Char} {x : Lexeme}
    (h : x.Stands before rest) (hcomment : x.isComment = false) (hnewline : x ≠ .newline)
    (hown : LineBreak.normalize own = x.text) : own.getLast? ≠ some '\r' := by
  intro hreturn
  have hlast := LineBreak.getLast?_normalize_of_return hreturn
  rw [hown] at hlast
  cases x with
  | item i =>
    have hitem : i.last = '\n' := Option.some.inj ((Item.getLast?_text i).symm.trans hlast)
    cases i with
    | string quote body => exact (CharClass.ne_of_isQuote h.1.1).2.2.1 hitem
    | regex body => exact absurd hitem (show '/' ≠ '\n' by decide)
    | mark ch => exact absurd h.1.1 (by rw [show ch = '\n' from hitem]; decide)
  | blank ch => exact h.2 (Option.some.inj hlast)
  | newline => exact hnewline rfl
  | lineComment body => cases hcomment
  | blockComment body => cases hcomment

namespace Reading

variable {before : Option Char} {t u : List Char}

-- Where no comment begins, the text without its comments begins with the same character.
theorem head?_withoutComments (h : LineBreak.normalize t = u)
    (hopens : ¬ Comment.Opens ('/' :: u)) :
    (LineBreak.normalize (Lexeme.withoutComments (read before u).lexemes t)).head? = u.head? := by
  cases hfirst : first? before u with
  | none =>
    rw [eq_nil_of_first? hfirst] at h ⊢
    rw [read_nil]
    exact congrArg List.head? h
  | some result =>
    cases result with
    | error k =>
      rw [read_of_first?_error hfirst]
      exact congrArg List.head? h
    | ok p =>
      obtain ⟨x, rest⟩ := p
      obtain ⟨rfl, hstands⟩ := first?_eq_ok_iff.mp hfirst
      rw [Comment.opens_slash_iff] at hopens
      have hcomment : x.isComment = false := by
        cases x with
        | lineComment body => exact absurd (.inl rfl) hopens
        | blockComment body => exact absurd (.inl rfl) hopens
        | item => rfl
        | blank => rfl
        | newline => rfl
      obtain ⟨hown, -⟩ := LineBreak.normalize_splitAt h
      rw [read_of_first? hfirst, List.head?_append_of_ne_nil _ x.text_ne_nil]
      show (LineBreak.normalize ((if x.isComment then _ else _) ++ _)).head? = _
      rw [hcomment]
      exact LineBreak.head?_normalize_append hown x.text_ne_nil _

/-! ## 2. Readings without comments -/

/-- The reading `x` has no comment, and behind an item ending in `before` it is laid out as `y`
is, whatever gap there was in front of the two. -/
structure Freed (before : Option Char) (x y : Reading) : Prop where
  clean : x.Clean
  write_eq : ∀ gap, Layout.write before gap x.lexemes = Layout.write before gap y.lexemes

theorem Freed.prepend {x y : Reading} {z : Lexeme} (hz : z.isComment = false)
    (h : Freed (behind before z) x y) : Freed before (x.prepend z) (y.prepend z) where
  clean := by
    refine ⟨h.clean.1, fun w hw => ?_⟩
    rcases List.mem_cons.mp hw with rfl | hmem
    · exact hz
    · exact h.clean.2 w hmem
  write_eq gap := by
    show Layout.write before gap (z :: x.lexemes) = Layout.write before gap (z :: y.lexemes)
    cases z with
    | item i =>
      rw [Layout.write_item, Layout.write_item]
      exact congrArg (_ ++ ·) (h.write_eq .none)
    | blank ch => exact h.write_eq (gap.join .space)
    | newline => exact h.write_eq (gap.join .newline)
    | lineComment body => cases hz
    | blockComment body => cases hz

theorem Freed.lineComment {x y : Reading} (h : Freed before x y) (body : List Char) :
    Freed before x (y.prepend (.lineComment body)) where
  clean := h.clean
  write_eq gap := by
    rw [h.write_eq gap]
    show _ = Layout.write before (gap.join .none) y.lexemes
    rw [Gap.join_none]

theorem Freed.blockComment {x y : Reading} (h : Freed before x y) (body : List Char) :
    Freed before (x.prepend (.blank ' ')) (y.prepend (.blockComment body)) where
  clean := (Freed.prepend (z := .blank ' ') rfl h).clean
  write_eq gap := h.write_eq (gap.join .space)

-- Two newlines in a row are as good as one.
theorem Freed.newline {x y : Reading} (h : Freed before (x.prepend .newline) y) :
    Freed before (x.prepend .newline) (y.prepend .newline) where
  clean := h.clean
  write_eq gap := by
    have hnewline := h.write_eq .newline
    show Layout.write before (gap.join .newline) x.lexemes =
      Layout.write before (gap.join .newline) y.lexemes
    rwa [Gap.join_newline]

-- A part that is no comment is read in its place, also when the text behind it has lost its own.
theorem read_own {x : Lexeme} {own v : List Char}
    (hstands : x.Stands before (LineBreak.normalize v))
    (hown : LineBreak.normalize own = x.text)
    (hmeet : own.getLast? ≠ some '\r' ∨ v.head? ≠ some '\n') :
    read before (LineBreak.normalize (own ++ v)) =
      (read (behind before x) (LineBreak.normalize v)).prepend x := by
  rw [LineBreak.normalize_append hmeet, hown, read_of_stands hstands]

-- A carriage return takes along a newline that was behind a comment.
theorem read_own_newline {own v : List Char} (hown : LineBreak.normalize own = ['\n'])
    (hreturn : own.getLast? = some '\r') :
    read before (LineBreak.normalize (own ++ '\n' :: v)) =
      (read before (LineBreak.normalize v)).prepend .newline := by
  rw [LineBreak.normalize_append_newline hreturn, hown]
  exact read_newline before _

theorem freed_withoutComments (before : Option Char) (u : List Char) :
    ∀ t, LineBreak.normalize t = u → (read before u).leftOpen = none →
      Freed before
        (read before (LineBreak.normalize (Lexeme.withoutComments (read before u).lexemes t)))
        (read before u) := by
  fun_induction read before u with
  | case1 before u hnil =>
    intro t ht _
    rw [eq_nil_of_first? hnil] at ht
    show Freed before (read before (LineBreak.normalize t)) ⟨[], none⟩
    rw [ht, read_nil]
    exact ⟨⟨rfl, fun x hx => absurd hx List.not_mem_nil⟩, fun gap => rfl⟩
  | case2 before u k hfirst =>
    intro t _ hopen
    cases hopen
  | case3 before u x rest hfirst r ih =>
    intro t ht hopen
    obtain ⟨rfl, hstands⟩ := first?_eq_ok_iff.mp hfirst
    obtain ⟨hown, hrest⟩ := LineBreak.normalize_splitAt ht
    have hfreed := ih _ hrest hopen
    have hhead := @head?_withoutComments (behind before x) _ _ hrest
    change Freed before (read before (LineBreak.normalize ((if x.isComment then x.plain else _) ++
      Lexeme.withoutComments r.lexemes _))) (r.prepend x)
    change _ → (LineBreak.normalize (Lexeme.withoutComments r.lexemes _)).head? = _ at hhead
    generalize (LineBreak.splitAt x.text.length t).1 = own at hown hfreed hhead ⊢
    generalize Lexeme.withoutComments r.lexemes (LineBreak.splitAt x.text.length t).2 = v
      at hfreed hhead ⊢
    cases x with
    | item i =>
      have hnext : (Lexeme.item i).Stands before (LineBreak.normalize v) := by
        refine ⟨hstands.1, fun hslash => ?_⟩
        have hopens := hstands.2 hslash
        rwa [Comment.opens_slash_iff, hhead hopens, ← Comment.opens_slash_iff]
      have hreturn := Lexeme.getLast?_ne_return hstands rfl Lexeme.noConfusion hown
      show Freed before (read before (LineBreak.normalize (own ++ v))) _
      rw [read_own hnext hown (.inl hreturn)]
      exact hfreed.prepend rfl
    | blank ch =>
      have hreturn := Lexeme.getLast?_ne_return hstands rfl Lexeme.noConfusion hown
      show Freed before (read before (LineBreak.normalize (own ++ v))) _
      rw [read_own (x := .blank ch) hstands hown (.inl hreturn)]
      exact hfreed.prepend rfl
    | newline =>
      show Freed before (read before (LineBreak.normalize (own ++ v))) _
      by_cases hmeet : own.getLast? = some '\r' ∧ v.head? = some '\n'
      · obtain ⟨w, rfl⟩ := List.head?_eq_some_iff.mp hmeet.2
        rw [LineBreak.normalize_cons_of_ne (by decide), read_newline] at hfreed
        rw [read_own_newline hown hmeet.1]
        exact hfreed.newline
      · rw [read_own (x := .newline) trivial hown (not_and_or.mp hmeet)]
        exact hfreed.prepend rfl
    | lineComment body => exact hfreed.lineComment body
    | blockComment body =>
      show Freed before (read before (LineBreak.normalize (' ' :: v))) _
      rw [LineBreak.normalize_cons_of_ne (by decide), read_blank (by decide) (by decide)]
      exact hfreed.blockComment body

end Reading

/-! ## 3. Results -/

theorem freed_ofText {s o : String} (h : minify s = .ok o) :
    Reading.Freed none (Reading.ofText (Run.withoutComments s)) (Reading.ofText s) := by
  have hopen := (minify_eq_ok_iff.mp h).1
  rw [Run.withoutComments, Run.transcript_eq h]
  show Reading.Freed none (Reading.read none (LineBreak.normalize (String.ofList _).toList)) _
  rw [String.toList_ofList]
  exact Reading.freed_withoutComments none _ _ rfl hopen

theorem minify_of_freed {s o : String} (h : minify s = .ok o) :
    minify (Run.withoutComments s) = .ok o := by
  have hfreed := freed_ofText h
  obtain ⟨-, rfl⟩ := minify_eq_ok_iff.mp h
  rw [minify_eq_ok_iff]
  exact ⟨hfreed.clean.1, congrArg String.ofList (hfreed.write_eq .none).symm⟩

/-- A text is minified as it is without its comments, and without them it has none. So the text of
a comment makes no difference: two texts that are the same without their comments have the same
result. -/
theorem minify_withoutComments {s o : String} (h : minify s = .ok o) :
    minify (Run.withoutComments s) = .ok o ∧
      (∀ x ∈ Run.transcript (Run.withoutComments s), x.isComment = false) ∧
      ∀ t p, minify t = .ok p → Run.withoutComments t = Run.withoutComments s → p = o := by
  have hfree := minify_of_freed h
  refine ⟨hfree, ?_, ?_⟩
  · rw [Run.transcript_eq hfree]
    exact (freed_ofText h).clean.2
  · intro t p ht hsame
    have hp := minify_of_freed ht
    rw [hsame, hfree] at hp
    exact (Except.ok.inj hp).symm

theorem minify_withoutComments_quotes :
    minify "a = // it's\r\n /* \"/*\n */ /b/ /**/ c" = .ok "a=/b/c" ∧
      Run.withoutComments "a = // it's\r\n /* \"/*\n */ /b/ /**/ c" = "a = \r\n   /b/   c" ∧
      minify "a = \r\n   /b/   c" = .ok "a=/b/c" := by
  have h : minify "a = // it's\r\n /* \"/*\n */ /b/ /**/ c" = .ok "a=/b/c" := by
    rw [minify_eq_ok_iff]
    decide +kernel
  have hfree : Run.withoutComments "a = // it's\r\n /* \"/*\n */ /b/ /**/ c" =
      "a = \r\n   /b/   c" := by
    rw [Run.withoutComments, Run.transcript_eq h]
    decide +kernel
  refine ⟨h, hfree, ?_⟩
  rw [← hfree]
  exact (minify_withoutComments h).1

end ScriptMinifier
