import ScriptMinifier.Proofs.Transcript

/-!
The words of a text. A layout keeps every one of them, in order and apart, since it only drops a
separator where no two words would run together.
-/

namespace ScriptMinifier

/-! ## 1. Words -/

/-- The words of a text, in order: its longest runs of word characters. -/
def words (t : List Char) : List (List Char) :=
  (t.splitOnP (!CharClass.isWord ·)).filter (· ≠ [])

theorem words_nil : words [] = [] := by
  simp [words]

-- All that is said of words here comes from this equation.
theorem words_append_cons {c : Char} (h : CharClass.isWord c = false) (p q : List Char) :
    words (p ++ c :: q) = words p ++ words q := by
  unfold words
  rw [List.splitOnP_append_cons p q (by simp [h]), List.filter_append]

theorem words_cons {c : Char} (h : CharClass.isWord c = false) (q : List Char) :
    words (c :: q) = words q := by
  have hsplit := words_append_cons h [] q
  rwa [words_nil, List.nil_append, List.nil_append] at hsplit

theorem words_concat {c : Char} (h : CharClass.isWord c = false) (p : List Char) :
    words (p ++ [c]) = words p := by
  rw [words_append_cons h, words_nil, List.append_nil]

-- Whatever separates two texts, the words are those of the one and then those of the other.
theorem words_append_separators {u : List Char} (hne : u ≠ [])
    (h : ∀ c ∈ u, CharClass.isWord c = false) (p q : List Char) :
    words (p ++ (u ++ q)) = words p ++ words q := by
  induction u generalizing p with
  | nil => exact absurd rfl hne
  | cons c u ih =>
    have hc := h c List.mem_cons_self
    by_cases hu : u = []
    · rw [hu]
      exact words_append_cons hc p q
    · have hrest := ih hu (fun a ha => h a (List.mem_cons_of_mem c ha)) (p ++ [c])
      rwa [List.append_assoc, words_concat hc] at hrest

-- Where no two words meet, a separator makes no difference.
theorem words_append_cons_cons {c r : Char} {p : List Char} (hc : CharClass.isWord c = false)
    (h : ∀ l ∈ p.getLast?, CharClass.isWord l = false ∨ CharClass.isWord r = false)
    (q : List Char) : words (p ++ c :: r :: q) = words (p ++ r :: q) := by
  rw [words_append_cons hc]
  by_cases hr : CharClass.isWord r = false
  · rw [words_append_cons hr, words_cons hr]
  · rcases p.eq_nil_or_concat with rfl | ⟨u, l, rfl⟩
    · rw [words_nil, List.nil_append, List.nil_append]
    · have hl : CharClass.isWord l = false := (h l (by simp)).resolve_right hr
      rw [List.concat_eq_append, words_concat hl, List.append_assoc]
      exact (words_append_cons hl u (r :: q)).symm

/-! ## 2. The words of a layout -/

/-- The shortest text that makes a gap. -/
def Gap.text : Gap → List Char
  | .none => []
  | .space => [' ']
  | .newline => ['\n']

theorem Gap.text_join_eq_nil_iff (g k : Gap) :
    (g.join k).text = [] ↔ g.text = [] ∧ k.text = [] := by
  cases g <;> cases k <;> decide

theorem Gap.isWord_of_mem_text {g : Gap} {c : Char} (h : c ∈ g.text) :
    CharClass.isWord c = false := by
  cases g with
  | none => cases h
  | space =>
    rw [List.mem_singleton.mp h]
    decide
  | newline =>
    rw [List.mem_singleton.mp h]
    decide

-- A separator is only dropped where no two words meet.
theorem Layout.separator_eq_text (l r : Char) (gap : Gap) :
    separator l r gap = gap.text ∨
      separator l r gap = [] ∧ (CharClass.isWord l = false ∨ CharClass.isWord r = false) := by
  cases gap with
  | none => exact .inl rfl
  | space =>
    by_cases hkeeps : keepsSpace l r = true
    · exact .inl (if_pos hkeeps)
    · refine .inr ⟨if_neg hkeeps, ?_⟩
      rwa [keepsSpace, Bool.not_eq_true, Bool.and_eq_false_iff] at hkeeps
  | newline =>
    by_cases hkeeps : keepsBreak l r = true
    · exact .inl (if_pos hkeeps)
    · refine .inr ⟨if_neg hkeeps, ?_⟩
      by_contra hwords
      rw [not_or, Bool.not_eq_false, Bool.not_eq_false] at hwords
      exact hkeeps (by simp [keepsBreak, hwords])

theorem words_separator (p : List Char) (gap : Gap) (r : Char) (q : List Char) :
    words (p ++ (p.getLast?.elim [] (Layout.separator · r gap) ++ r :: q)) =
      words (p ++ (gap.text ++ r :: q)) := by
  have hdropped (h : ∀ l ∈ p.getLast?, CharClass.isWord l = false ∨ CharClass.isWord r = false) :
      words (p ++ r :: q) = words (p ++ (gap.text ++ r :: q)) := by
    cases gap with
    | none => rfl
    | space => exact (words_append_cons_cons (by decide) h q).symm
    | newline => exact (words_append_cons_cons (by decide) h q).symm
  cases hlast : p.getLast? with
  | none =>
    rw [Option.elim_none, List.nil_append]
    exact hdropped (by simp [hlast])
  | some l =>
    rw [Option.elim_some]
    rcases Layout.separator_eq_text l r gap with hkept | ⟨hgone, hwords⟩
    · rw [hkept]
    · rw [hgone, List.nil_append]
      exact hdropped (by simpa [hlast] using hwords)

-- A part between two items separates them exactly if it leaves a gap.
theorem Lexeme.plain_eq_nil_iff {x : Lexeme} (hx : x.item? = none) :
    x.plain = [] ↔ x.gap.text = [] := by
  cases x with
  | item i => cases hx
  | blank ch => exact iff_of_false (List.cons_ne_nil _ _) (List.cons_ne_nil _ _)
  | newline => exact iff_of_false (List.cons_ne_nil _ _) (List.cons_ne_nil _ _)
  | lineComment body => exact iff_of_true rfl rfl
  | blockComment body => exact iff_of_false (List.cons_ne_nil _ _) (List.cons_ne_nil _ _)

theorem Lexeme.isWord_of_mem_plain {x : Lexeme} (hx : x.item? = none)
    (hblank : ∀ ch, x = .blank ch → CharClass.isWord ch = false) {c : Char} (h : c ∈ x.plain) :
    CharClass.isWord c = false := by
  cases x with
  | item i => cases hx
  | blank ch =>
    rw [List.mem_singleton.mp h]
    exact hblank ch rfl
  | newline =>
    rw [List.mem_singleton.mp h]
    decide
  | lineComment body => cases h
  | blockComment body =>
    rw [List.mem_singleton.mp h]
    decide

theorem words_plain {x : Lexeme} (hx : x.item? = none)
    (hblank : ∀ ch, x = .blank ch → CharClass.isWord ch = false) (gap : Gap) (p q : List Char) :
    words (p ++ ((gap.join x.gap).text ++ q)) = words (p ++ (gap.text ++ (x.plain ++ q))) := by
  have hempty : (gap.join x.gap).text = [] ↔ gap.text ++ x.plain = [] := by
    rw [Gap.text_join_eq_nil_iff, List.append_eq_nil_iff, Lexeme.plain_eq_nil_iff hx]
  rw [← List.append_assoc gap.text]
  by_cases hnone : gap.text ++ x.plain = []
  · rw [hnone, hempty.mpr hnone]
  · have hparts : ∀ c ∈ gap.text ++ x.plain, CharClass.isWord c = false := by
      intro c hc
      rcases List.mem_append.mp hc with hgap | hpart
      · exact Gap.isWord_of_mem_text hgap
      · exact Lexeme.isWord_of_mem_plain hx hblank hpart
    rw [words_append_separators hnone hparts]
    exact words_append_separators (mt hempty.mp hnone) (fun c hc => Gap.isWord_of_mem_text hc) p q

theorem Item.text_eq_first_cons (i : Item) : ∃ t, i.text = i.first :: t := by
  cases i with
  | string quote body => exact ⟨_, rfl⟩
  | regex body => exact ⟨_, rfl⟩
  | mark ch => exact ⟨_, rfl⟩

-- Behind any text `p`, a layout has the words that its parts have without their comments.
theorem words_write {xs : List Lexeme}
    (hblank : ∀ ch, .blank ch ∈ xs → CharClass.isWord ch = false) (gap : Gap) (p : List Char) :
    words (p ++ Layout.write p.getLast? gap xs) =
      words (p ++ (gap.text ++ xs.flatMap Lexeme.plain)) := by
  induction xs generalizing gap p with
  | nil =>
    rw [Layout.write, List.flatMap_nil]
    cases gap with
    | none => rfl
    | space => rw [List.append_nil]; exact (words_concat (by decide) p).symm
    | newline => rw [List.append_nil]; exact (words_concat (by decide) p).symm
  | cons x xs ih =>
    have hrest : ∀ ch, .blank ch ∈ xs → CharClass.isWord ch = false :=
      fun ch hch => hblank ch (List.mem_cons_of_mem x hch)
    cases hx : x.item? with
    | none =>
      rw [Layout.write_of_item?_eq_none hx, ih hrest, List.flatMap_cons]
      exact words_plain hx (fun ch hch => hblank ch (hch ▸ List.mem_cons_self)) gap p _
    | some i =>
      cases x <;> cases hx
      obtain ⟨t, ht⟩ := i.text_eq_first_cons
      have hbehind := ih hrest .none
        (p ++ p.getLast?.elim [] (Layout.separator · i.first gap) ++ i.text)
      rw [Item.getLast?_append_text, show Gap.none.text = [] from rfl, List.nil_append] at hbehind
      calc words (p ++ Layout.write p.getLast? gap (.item i :: xs))
          = words (p ++ p.getLast?.elim [] (Layout.separator · i.first gap) ++ i.text ++
              Layout.write (some i.last) .none xs) := by
            rw [Layout.write_item]
            simp only [List.append_assoc]
        _ = words (p ++ p.getLast?.elim [] (Layout.separator · i.first gap) ++ i.text ++
              xs.flatMap Lexeme.plain) := hbehind
        _ = words (p ++ (p.getLast?.elim [] (Layout.separator · i.first gap) ++
              i.first :: (t ++ xs.flatMap Lexeme.plain))) := by
            rw [ht]
            simp only [List.append_assoc, List.cons_append]
        _ = words (p ++ (gap.text ++ i.first :: (t ++ xs.flatMap Lexeme.plain))) :=
          words_separator p gap i.first _
        _ = words (p ++ (gap.text ++ (Lexeme.item i :: xs).flatMap Lexeme.plain)) := by
            rw [← List.cons_append, ← ht]
            rfl

/-! ## 3. The words of a result -/

/-- Minifying keeps the words of a text, once its line breaks are newlines and every comment is
what it stands for: none is dropped, moved, split or joined to another. -/
theorem words_minify {s o : String} (h : minify s = .ok o) :
    (Run.transcript s).flatMap Lexeme.text = LineBreak.normalize s.toList ∧
      words o.toList = words ((Run.transcript s).flatMap Lexeme.plain) := by
  obtain ⟨hopen, rfl⟩ := minify_eq_ok_iff.mp h
  rw [Run.transcript_eq h]
  constructor
  · exact Reading.flatMap_text_of_closed hopen
  · have hblank : ∀ ch, .blank ch ∈ (Reading.ofText s).lexemes → CharClass.isWord ch = false :=
      fun ch hch => CharClass.isWord_eq_false_of_le (Reading.blank_of_mem_read hch).1
    rw [Layout.compact, String.toList_ofList]
    exact words_write hblank .none []

theorem words_minify_comments :
    minify "let/* 1 */x // 2\n= /3/ in\ty_ + 'a b'" = .ok "let x=/3/in y_+'a b'" ∧
      words "let x=/3/in y_+'a b'".toList = words "let x \n= /3/ in\ty_ + 'a b'".toList := by
  have h : minify "let/* 1 */x // 2\n= /3/ in\ty_ + 'a b'" = .ok "let x=/3/in y_+'a b'" := by
    rw [minify_eq_ok_iff]
    decide +kernel
  refine ⟨h, (words_minify h).2.trans ?_⟩
  rw [Run.transcript_eq h]
  decide +kernel

end ScriptMinifier
