import Mathlib.Data.List.Chain
import ScriptMinifier.Proofs.Layout
import ScriptMinifier.Proofs.Reading

/-!
Reading again what a layout has written. The items come back, and so do the separators that were
kept, unless a slash has come to stand where it makes a comment of itself and the next item.
-/

namespace ScriptMinifier

/-! ## 1. What a layout keeps -/

namespace Layout

/-- What a layout keeps of a gap between `l` and `r`. -/
def keptGap (l r : Char) : Gap → List Lexeme
  | .none => []
  | .space => if keepsSpace l r then [.blank ' '] else []
  | .newline => if keepsBreak l r then [.newline] else []

/-- The parts that a layout writes for a row of parts. -/
def kept (before : Option Char) (gap : Gap) : List Lexeme → List Lexeme
  | [] => []
  | .item i :: xs =>
    before.elim [] (keptGap · i.first gap) ++ .item i :: kept (some i.last) .none xs
  | x :: xs => kept before (gap.join x.gap) xs

theorem keptGap_cases (l r : Char) (gap : Gap) :
    (separator l r gap = [] ∧ keptGap l r gap = []) ∨
    (gap = .space ∧ separator l r gap = [' '] ∧ keptGap l r gap = [.blank ' ']) ∨
    (gap = .newline ∧ separator l r gap = ['\n'] ∧ keptGap l r gap = [.newline]) := by
  cases gap with
  | none => exact .inl ⟨rfl, rfl⟩
  | space =>
    by_cases hkeeps : keepsSpace l r = true
    · exact .inr (.inl ⟨rfl, if_pos hkeeps, if_pos hkeeps⟩)
    · exact .inl ⟨if_neg hkeeps, if_neg hkeeps⟩
  | newline =>
    by_cases hkeeps : keepsBreak l r = true
    · exact .inr (.inr ⟨rfl, if_pos hkeeps, if_pos hkeeps⟩)
    · exact .inl ⟨if_neg hkeeps, if_neg hkeeps⟩

-- In front of the first item of a text nothing is kept.
theorem separator_cases (before : Option Char) (r : Char) (gap : Gap) :
    (before.elim [] (separator · r gap) = [] ∧ before.elim [] (keptGap · r gap) = []) ∨
    (gap = .space ∧ before.elim [] (separator · r gap) = [' '] ∧
      before.elim [] (keptGap · r gap) = [.blank ' ']) ∨
    (gap = .newline ∧ before.elim [] (separator · r gap) = ['\n'] ∧
      before.elim [] (keptGap · r gap) = [.newline]) := by
  cases before with
  | none => exact .inl ⟨rfl, rfl⟩
  | some l => exact keptGap_cases l r gap

theorem items_kept (before : Option Char) (gap : Gap) (xs : List Lexeme) :
    (kept before gap xs).filterMap Lexeme.item? = xs.filterMap Lexeme.item? := by
  fun_induction kept before gap xs with
  | case1 => rfl
  | case2 before gap i xs ih =>
    rw [List.filterMap_append, Lexeme.filterMap_item, Lexeme.filterMap_item, ih]
    rcases separator_cases before i.first gap with ⟨-, h⟩ | ⟨-, -, h⟩ | ⟨-, -, h⟩ <;> rw [h] <;> rfl
  | case3 before gap x xs hx ih =>
    rw [ih, List.filterMap_cons_none (Lexeme.item?_eq_none hx)]

theorem isComment_of_mem_kept {before : Option Char} {gap : Gap} {x : Lexeme} {xs : List Lexeme}
    (h : x ∈ kept before gap xs) : x.isComment = false := by
  fun_induction kept before gap xs with
  | case1 => cases h
  | case2 before gap i xs ih =>
    rw [List.mem_append, List.mem_cons] at h
    rcases h with h | rfl | h
    · rcases separator_cases before i.first gap with ⟨-, hgap⟩ | ⟨-, -, hgap⟩ | ⟨-, -, hgap⟩ <;>
        rw [hgap] at h
      · cases h
      · obtain rfl := List.mem_singleton.mp h
        rfl
      · obtain rfl := List.mem_singleton.mp h
        rfl
    · rfl
    · exact ih h
  | case3 before gap x xs hx ih => exact ih h

-- A gap that was kept once is kept again.
theorem write_kept (before : Option Char) (gap : Gap) (xs : List Lexeme) :
    write before .none (kept before gap xs) = write before gap xs := by
  fun_induction kept before gap xs with
  | case1 => rfl
  | case2 before gap i xs ih =>
    have hnone := elim_separator_none before i.first
    rw [write_item]
    rcases separator_cases before i.first gap with ⟨hsep, hkept⟩ | ⟨rfl, hsep, hkept⟩ |
      ⟨rfl, hsep, hkept⟩
    · rw [hkept, hsep, List.nil_append, write_item, hnone, ih]
    · rw [hkept, hsep, List.singleton_append, write_of_item?_eq_none rfl, write_item]
      rw [show Gap.none.join (Lexeme.blank ' ').gap = .space from rfl, hsep, ih]
    · rw [hkept, hsep, List.singleton_append, write_of_item?_eq_none rfl, write_item]
      rw [show Gap.none.join Lexeme.newline.gap = .newline from rfl, hsep, ih]
  | case3 before gap x xs hx ih => rw [ih, write_of_item?_eq_none (Lexeme.item?_eq_none hx)]

end Layout

/-! ## 2. Slashes that stand together -/

/-- Written side by side, `i` and `j` do not begin a comment. -/
def Item.Apart (i j : Item) : Prop := i = .mark '/' → j ≠ .mark '/' ∧ j ≠ .mark '*'

instance (i j : Item) : Decidable (i.Apart j) := inferInstanceAs (Decidable (_ → _))

/-- Nothing is left open, and no part is a comment. -/
def Reading.Clean (x : Reading) : Prop :=
  x.leftOpen = none ∧ ∀ y ∈ x.lexemes, y.isComment = false

-- Behind a slash that divides no gap is kept, and no regular expression can follow.
theorem Layout.opens_write_iff {xs : List Lexeme} (hfit : Lexeme.Fit (some '/') xs) (gap : Gap) :
    Comment.Opens ('/' :: write (some '/') gap xs) ↔
      ∃ j, (xs.filterMap Lexeme.item?).head? = some j ∧ ¬ Item.Apart (.mark '/') j := by
  induction xs generalizing gap with
  | nil =>
    constructor
    · exact fun h => absurd h (Comment.not_opens_singleton '/')
    · rintro ⟨j, hj, -⟩
      cases hj
  | cons x xs ih =>
    cases hx : x.item? with
    | none =>
      rw [write_of_item?_eq_none hx, List.filterMap_cons_none hx]
      exact ih (Lexeme.fit_of_item?_eq_none hx hfit) _
    | some j =>
      cases x <;> cases hx
      have hfits := (Lexeme.fit_item.mp hfit).1
      rw [write_item, Option.elim_some, separator_eq_nil (by decide) (fun _ => by decide),
        Lexeme.filterMap_item, List.head?_cons]
      cases j with
      | string quote body =>
        show Comment.Opens ('/' :: quote :: _) ↔ _
        have hquote : quote ≠ '/' ∧ quote ≠ '*' := by
          rcases CharClass.isQuote_iff.mp hfits.1 with rfl | rfl <;> decide
        simp [Comment.opens_cons_cons_iff, Item.Apart, hquote]
      | regex body => exact absurd hfits.1 (by decide)
      | mark ch =>
        show Comment.Opens ('/' :: ch :: _) ↔ _
        simp [Comment.opens_cons_cons_iff, Item.Apart, or_iff_not_imp_left]

namespace Reading

theorem read_kept (before : Option Char) (r : Char) (gap : Gap) (t : List Char) :
    read before (before.elim [] (Layout.separator · r gap) ++ t) =
      ⟨before.elim [] (Layout.keptGap · r gap) ++ (read before t).lexemes,
        (read before t).leftOpen⟩ := by
  rcases Layout.separator_cases before r gap with ⟨hsep, hkept⟩ | ⟨-, hsep, hkept⟩ |
    ⟨-, hsep, hkept⟩
  · rw [hsep, hkept]
    rfl
  · rw [hsep, hkept, List.singleton_append, read_blank (by decide) (by decide)]
    rfl
  · rw [hsep, hkept, List.singleton_append, read_newline]
    rfl

theorem clean_of_prepend {x : Lexeme} {y : Reading} (h : (y.prepend x).Clean) :
    x.isComment = false ∧ y.Clean :=
  ⟨h.2 x List.mem_cons_self, h.1, fun z hz => h.2 z (List.mem_cons_of_mem _ hz)⟩

theorem not_clean_of_opens {before : Option Char} {t : List Char} (h : Comment.Opens t) :
    ¬ (read before t).Clean := by
  intro hclean
  rcases h with ⟨u, rfl⟩ | ⟨u, rfl⟩
  · change (read before ('/' :: '/' :: u)).Clean at hclean
    rw [read_lineComment] at hclean
    cases (clean_of_prepend hclean).1
  · change (read before ('/' :: '*' :: u)).Clean at hclean
    cases hsplit : Comment.splitBlock? u with
    | none =>
      rw [read_unclosedComment hsplit] at hclean
      cases hclean.1
    | some p =>
      rw [read_blockComment hsplit] at hclean
      cases (clean_of_prepend hclean).1

theorem read_write {before : Option Char} {xs : List Lexeme} (hfit : Lexeme.Fit before xs)
    (hapart : (xs.filterMap Lexeme.item?).IsChain Item.Apart) (gap : Gap) :
    read before (Layout.write before gap xs) = ⟨Layout.kept before gap xs, none⟩ := by
  fun_induction Layout.kept before gap xs with
  | case1 before gap => exact read_nil before
  | case2 before gap i xs ih =>
    obtain ⟨hfits, hfit⟩ := Lexeme.fit_item.mp hfit
    obtain ⟨hhead, hapart⟩ := List.isChain_cons.mp hapart
    have hslash : i = .mark '/' → ¬ Comment.Opens ('/' :: Layout.write (some i.last) .none xs) := by
      rintro rfl hopens
      obtain ⟨j, hj, hclash⟩ := (Layout.opens_write_iff hfit .none).mp hopens
      exact hclash (hhead j hj)
    rw [Layout.write_item, List.append_assoc, read_kept, read_item hfits hslash, ih hfit hapart]
    rfl
  | case3 before gap x xs hx ih =>
    have hnone := Lexeme.item?_eq_none hx
    rw [List.filterMap_cons_none hnone] at hapart
    rw [Layout.write_of_item?_eq_none hnone]
    exact ih (Lexeme.fit_of_item?_eq_none hnone hfit) hapart

-- Where two items are not apart, the second is read as a part of a comment.
theorem isChain_of_clean {before : Option Char} {gap : Gap} {xs : List Lexeme}
    (hfit : Lexeme.Fit before xs) (h : (read before (Layout.write before gap xs)).Clean) :
    (xs.filterMap Lexeme.item?).IsChain Item.Apart := by
  fun_induction Layout.write before gap xs with
  | case1 => exact .nil
  | case2 before gap i xs ih =>
    obtain ⟨hfits, hfit⟩ := Lexeme.fit_item.mp hfit
    rw [List.append_assoc, read_kept] at h
    have hclean : (read before (i.text ++ Layout.write (some i.last) .none xs)).Clean :=
      ⟨h.1, fun y hy => h.2 y (List.mem_append_right _ hy)⟩
    have hslash : i = .mark '/' → ¬ Comment.Opens ('/' :: Layout.write (some i.last) .none xs) := by
      rintro rfl hopens
      exact not_clean_of_opens hopens hclean
    rw [read_item hfits hslash] at hclean
    rw [Lexeme.filterMap_item, List.isChain_cons]
    constructor
    · intro j hj hi
      subst hi
      by_contra hclash
      exact hslash rfl ((Layout.opens_write_iff hfit .none).mpr ⟨j, hj, fun h => hclash (h rfl)⟩)
    · exact ih hfit (clean_of_prepend hclean).2
  | case3 before gap x xs hx ih =>
    have hnone := Lexeme.item?_eq_none hx
    rw [List.filterMap_cons_none hnone]
    exact ih (Lexeme.fit_of_item?_eq_none hnone hfit) h

end Reading

end ScriptMinifier
