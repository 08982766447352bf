import ScriptMinifier.Proofs.Idempotence

/-!
The texts that minifying leaves as they are. They hold nothing but items and the separators that
a layout keeps between them, each written in the one way in which a layout writes it.
-/

namespace ScriptMinifier

/-! ## 1. Tight rows -/

namespace Layout

/-- Every separator of a row stands alone between two items that it has to keep apart. The row
stands behind an item ending in `before`, if there is one directly in front of it. -/
inductive Tight : Option Char → List Lexeme → Prop where
  | nil {before : Option Char} : Tight before []
  | item {before : Option Char} (i : Item) {xs : List Lexeme} (rest : Tight (some i.last) xs) :
      Tight before (.item i :: xs)
  | space {l : Char} (ch : Char) (i : Item) {xs : List Lexeme}
      (keeps : keepsSpace l i.first = true) (rest : Tight (some i.last) xs) :
      Tight (some l) (.blank ch :: .item i :: xs)
  | newline {l : Char} (i : Item) {xs : List Lexeme}
      (keeps : keepsBreak l i.first = true) (rest : Tight (some i.last) xs) :
      Tight (some l) (.newline :: .item i :: xs)

-- What a layout keeps is tight, whatever it was kept of.
theorem tight_kept (before : Option Char) (gap : Gap) (xs : List Lexeme) :
    Tight before (kept before gap xs) := by
  fun_induction kept before gap xs with
  | case1 => exact .nil
  | case2 before gap i xs ih =>
    cases before with
    | none => exact .item i ih
    | some l =>
      rw [Option.elim_some]
      cases gap with
      | none => exact .item i ih
      | space =>
        by_cases hkeeps : keepsSpace l i.first = true
        · rw [show keptGap l i.first .space = [.blank ' '] from if_pos hkeeps]
          exact .space ' ' i hkeeps ih
        · rw [show keptGap l i.first .space = [] from if_neg hkeeps]
          exact .item i ih
      | newline =>
        by_cases hkeeps : keepsBreak l i.first = true
        · rw [show keptGap l i.first .newline = [.newline] from if_pos hkeeps]
          exact .newline i hkeeps ih
        · rw [show keptGap l i.first .newline = [] from if_neg hkeeps]
          exact .item i ih
  | case3 before gap x xs hx ih => exact ih

theorem blank_of_mem_kept {before : Option Char} {gap : Gap} {xs : List Lexeme} {ch : Char}
    (h : .blank ch ∈ kept before gap xs) : ch = ' ' := by
  fun_induction kept before gap xs with
  | case1 => cases h
  | case2 before gap i xs ih =>
    rw [List.mem_append, List.mem_cons] at h
    rcases h with hgap | hitem | hrest
    · rcases separator_cases before i.first gap with ⟨-, hkept⟩ | ⟨-, -, hkept⟩ | ⟨-, -, hkept⟩ <;>
        rw [hkept] at hgap
      · cases hgap
      · exact Lexeme.blank.inj (List.mem_singleton.mp hgap)
      · cases List.mem_singleton.mp hgap
    · cases hitem
    · exact ih hrest
  | case3 before gap x xs hx ih => exact ih h

-- Of a tight row with spaces for blanks, all is kept.
theorem kept_of_tight {before : Option Char} {xs : List Lexeme} (h : Tight before xs)
    (hblank : ∀ ch, .blank ch ∈ xs → ch = ' ') : kept before .none xs = xs := by
  induction h with
  | nil => rfl
  | @item before i xs _ ih =>
    have hrest : kept (some i.last) .none xs = xs :=
      ih (fun ch hch => hblank ch (List.mem_cons_of_mem _ hch))
    have hnone : before.elim [] (keptGap · i.first .none) = [] := by cases before <;> rfl
    rw [kept, hrest, hnone, List.nil_append]
  | @space l ch i xs hkeeps _ ih =>
    obtain rfl := hblank ch List.mem_cons_self
    have hrest : kept (some i.last) .none xs = xs :=
      ih (fun ch hch => hblank ch (List.mem_cons_of_mem _ (List.mem_cons_of_mem _ hch)))
    show (if keepsSpace l i.first then _ else _) ++ .item i :: kept (some i.last) .none xs = _
    rw [if_pos hkeeps, hrest]
    rfl
  | @newline l i xs hkeeps _ ih =>
    have hrest : kept (some i.last) .none xs = xs :=
      ih (fun ch hch => hblank ch (List.mem_cons_of_mem _ (List.mem_cons_of_mem _ hch)))
    show (if keepsBreak l i.first then _ else _) ++ .item i :: kept (some i.last) .none xs = _
    rw [if_pos hkeeps, hrest]
    rfl

-- What is kept is all that a layout writes.
theorem flatMap_text_kept (before : Option Char) (gap : Gap) (xs : List Lexeme) :
    (kept before gap xs).flatMap Lexeme.text = write before gap xs := by
  fun_induction kept before gap xs with
  | case1 => rfl
  | case2 before gap i xs ih =>
    rw [List.flatMap_append, List.flatMap_cons, ih, write_item, List.append_assoc]
    congr 1
    rcases separator_cases before i.first gap with ⟨hsep, hkept⟩ | ⟨-, hsep, hkept⟩ |
      ⟨-, hsep, hkept⟩ <;> rw [hsep, hkept] <;> rfl
  | case3 before gap x xs hx ih => rw [ih, write_of_item?_eq_none (Lexeme.item?_eq_none hx)]

end Layout

/-! ## 2. Texts that stay as they are -/

namespace Reading

-- A text that stays as it is has no comment, so that the parts of it that are kept are all.
theorem kept_of_minify {s : String} (h : minify s = .ok s) :
    Layout.kept none .none (ofText s).lexemes = (ofText s).lexemes := by
  have hclean := clean_of_minify h
  obtain ⟨-, htext⟩ := minify_eq_ok_iff.mp h
  have hagain : ofText s = read none (Layout.write none .none (ofText s).lexemes) := by
    rw [← ofText_compact, ← htext]
  have hapart : (ofText s).items.IsChain Item.Apart := by
    rw [hagain] at hclean
    exact isChain_of_clean (fit_read none _) hclean
  have hkept := ofText_compact_of_apart hapart
  rw [← htext] at hkept
  exact (congrArg Reading.lexemes hkept).symm

end Reading

/-- A text stays as it is under minifying if and only if it leaves nothing open, holds no carriage
return and no comment, and outside of literals has no control characters other than newlines and
no space or newline but where it stands alone between two items and has to. -/
theorem minify_eq_self_iff (s : String) :
    minify s = .ok s ↔
      (Reading.ofText s).leftOpen = none ∧ '\r' ∉ s.toList ∧
        (∀ x ∈ (Reading.ofText s).lexemes, x.isComment = false) ∧
        (∀ ch, .blank ch ∈ (Reading.ofText s).lexemes → ¬ ch < ' ') ∧
        Layout.Tight none (Reading.ofText s).lexemes := by
  constructor
  · intro h
    obtain ⟨hopen, -⟩ := minify_eq_ok_iff.mp h
    have hkept := Reading.kept_of_minify h
    have htight := Layout.tight_kept none .none (Reading.ofText s).lexemes
    rw [hkept] at htight
    refine ⟨hopen, Reading.return_notMem_of_minify h, (Reading.clean_of_minify h).2, ?_, htight⟩
    intro ch hch
    rw [← hkept] at hch
    rw [Layout.blank_of_mem_kept hch]
    decide
  · rintro ⟨hopen, hreturn, -, hcontrol, htight⟩
    have hblank : ∀ ch, .blank ch ∈ (Reading.ofText s).lexemes → ch = ' ' := fun ch hch =>
      Std.le_antisymm (Reading.blank_of_mem_read hch).1 (Char.not_lt.mp (hcontrol ch hch))
    have hspell : (Reading.ofText s).lexemes.flatMap Lexeme.text = s.toList := by
      rw [Reading.flatMap_text_of_closed hopen, LineBreak.normalize_eq_self hreturn]
    rw [minify_eq_ok_iff]
    refine ⟨hopen, ?_⟩
    rw [Layout.compact, ← Layout.flatMap_text_kept, Layout.kept_of_tight htight hblank, hspell,
      String.ofList_toList]

end ScriptMinifier
