import Mathlib.Data.String.Basic
import ScriptMinifier.Proofs.Rereading
import ScriptMinifier.Proofs.Transcript

/-!
Minifying what was minified. Nothing changes any more, unless two items have come to stand
together that are a comment now; then something is lost, if the second pass succeeds at all.
-/

namespace ScriptMinifier

/-! ## 1. The size of a layout -/

/-- What is written for a gap at most. -/
def Gap.size : Gap → Nat
  | .none => 0
  | _ => 1

theorem Gap.size_join_le (g k : Gap) : (g.join k).size ≤ g.size + k.size := by
  cases g <;> cases k <;> decide

namespace Layout

theorem utf8Len_elim_le (before : Option Char) (r : Char) (gap : Gap) :
    String.utf8Len (before.elim [] (separator · r gap)) ≤ gap.size := by
  rcases separator_cases before r gap with ⟨h, -⟩ | ⟨rfl, h, -⟩ | ⟨rfl, h, -⟩
  · rw [h]
    exact Nat.zero_le _
  · rw [h]
    decide
  · rw [h]
    decide

-- A comment takes more room than the space that stands for it.
theorem utf8Len_text_ge {x : Lexeme} (h : x.item? = none) :
    x.gap.size + (if x.isComment then 2 else 0) ≤ String.utf8Len x.text := by
  have hpos := Char.utf8Size_pos
  have hslash := hpos '/'
  have hstar := hpos '*'
  cases x with
  | item i => cases h
  | blank ch =>
    show 1 + 0 ≤ 0 + ch.utf8Size
    have hch := hpos ch
    omega
  | newline => exact Nat.add_le_add_left (hpos '\n') 0
  | lineComment body =>
    show 0 + 2 ≤ String.utf8Len body + '/'.utf8Size + '/'.utf8Size
    omega
  | blockComment body =>
    show 1 + 2 ≤ String.utf8Len (body ++ ['*', '/']) + '*'.utf8Size + '/'.utf8Size
    rw [String.utf8Len_append, String.utf8Len_cons, String.utf8Len_cons]
    omega

/-- A layout takes no more room than what it is a layout of, and less if there is a comment. -/
theorem utf8Len_write_le (before : Option Char) (gap : Gap) (xs : List Lexeme) :
    String.utf8Len (write before gap xs) + 2 * xs.countP Lexeme.isComment ≤
      gap.size + String.utf8Len (xs.flatMap Lexeme.text) := by
  fun_induction write before gap xs with
  | case1 => exact Nat.zero_le _
  | case2 before gap i xs ih =>
    have hsep := utf8Len_elim_le before i.first gap
    have hcount : (Lexeme.item i :: xs).countP Lexeme.isComment = xs.countP Lexeme.isComment :=
      List.countP_cons_of_neg Bool.false_ne_true
    change _ ≤ 0 + _ at ih
    rw [hcount, List.flatMap_cons, String.utf8Len_append, String.utf8Len_append,
      String.utf8Len_append]
    show _ ≤ _ + (String.utf8Len i.text + _)
    omega
  | case3 before gap x xs hx ih =>
    have hjoin := Gap.size_join_le gap x.gap
    have htext := utf8Len_text_ge (Lexeme.item?_eq_none hx)
    rw [List.countP_cons, List.flatMap_cons, String.utf8Len_append]
    split at htext <;> simp_all <;> omega

theorem mem_write {c : Char} {before : Option Char} {gap : Gap} {xs : List Lexeme}
    (h : c ∈ write before gap xs) : c = ' ' ∨ c = '\n' ∨ c ∈ xs.flatMap Lexeme.text := by
  fun_induction write before gap xs with
  | case1 => cases h
  | case2 before gap i xs ih =>
    rw [List.flatMap_cons, List.mem_append]
    rw [List.mem_append, List.mem_append] at h
    rcases h with (hsep | htext) | hrest
    · rcases separator_cases before i.first gap with ⟨hgap, -⟩ | ⟨-, hgap, -⟩ | ⟨-, hgap, -⟩ <;>
        rw [hgap] at hsep
      · cases hsep
      · exact .inl (List.mem_singleton.mp hsep)
      · exact .inr (.inl (List.mem_singleton.mp hsep))
    · exact .inr (.inr (.inl htext))
    · rcases ih hrest with hspace | hnewline | hmem
      · exact .inl hspace
      · exact .inr (.inl hnewline)
      · exact .inr (.inr (.inr hmem))
  | case3 before gap x xs hx ih =>
    rw [List.flatMap_cons, List.mem_append]
    rcases ih h with hspace | hnewline | hmem
    · exact .inl hspace
    · exact .inr (.inl hnewline)
    · exact .inr (.inr (.inr hmem))

end Layout

/-! ## 2. The result, read again -/

namespace Reading

theorem return_notMem_write (text : String) :
    '\r' ∉ Layout.write none .none (ofText text).lexemes := by
  intro h
  rcases Layout.mem_write h with hspace | hnewline | hmem
  · exact absurd hspace (by decide)
  · exact absurd hnewline (by decide)
  · apply LineBreak.return_notMem_normalize text.toList
    rw [← flatMap_text_read none (LineBreak.normalize text.toList)]
    exact List.mem_append_left _ hmem

-- No result has a carriage return.
theorem return_notMem_of_minify {s o : String} (h : minify s = .ok o) : '\r' ∉ o.toList := by
  obtain ⟨-, rfl⟩ := minify_eq_ok_iff.mp h
  rw [Layout.compact, String.toList_ofList]
  exact return_notMem_write s

theorem ofText_compact (text : String) :
    ofText (Layout.compact (ofText text).lexemes) =
      read none (Layout.write none .none (ofText text).lexemes) := by
  rw [ofText, Layout.compact, String.toList_ofList,
    LineBreak.normalize_eq_self (return_notMem_write text)]

-- Where no comment comes into being, the result reads as what was kept.
theorem ofText_compact_of_apart {text : String} (h : (ofText text).items.IsChain Item.Apart) :
    ofText (Layout.compact (ofText text).lexemes) =
      ⟨Layout.kept none .none (ofText text).lexemes, none⟩ := by
  rw [ofText_compact]
  exact read_write (fit_read none _) h .none

-- A text that stays as it is stays as long as it is, so that it holds no comment.
theorem clean_of_minify {text : String} (h : minify text = .ok text) : (ofText text).Clean := by
  obtain ⟨hopen, htext⟩ := minify_eq_ok_iff.mp h
  have hlist : text.toList = Layout.write none .none (ofText text).lexemes :=
    (congrArg String.toList htext).trans String.toList_ofList
  have hspell := flatMap_text_of_closed hopen
  rw [LineBreak.normalize_eq_self (return_notMem_of_minify h), hlist] at hspell
  have hlength := Layout.utf8Len_write_le none .none (ofText text).lexemes
  rw [hspell, Gap.size] at hlength
  have hcount : (ofText text).lexemes.countP Lexeme.isComment = 0 := by omega
  rw [List.countP_eq_zero] at hcount
  exact ⟨hopen, fun y hy => Bool.not_eq_true _ ▸ hcount y hy⟩

end Reading

/-! ## 3. A second pass -/

theorem minify_of_apart {s o : String} (h : minify s = .ok o)
    (hapart : (Reading.ofText s).items.IsChain Item.Apart) : minify o = .ok o := by
  obtain ⟨-, rfl⟩ := minify_eq_ok_iff.mp h
  rw [minify_eq_ok_iff, Reading.ofText_compact_of_apart hapart]
  refine ⟨rfl, ?_⟩
  rw [Layout.compact, Layout.compact, Layout.write_kept]

/-- A result stays as it is under a second pass if and only if no slash that divides came to stand
directly before another one or a star. -/
theorem minify_idempotent_iff {s o : String} (h : minify s = .ok o) :
    (minify o = .ok o ↔ (Run.items s).IsChain Item.Apart) ∧
      (Item.mark '/' ∉ Run.items s → minify o = .ok o) := by
  rw [Run.items_eq h]
  constructor
  · constructor
    · intro hagain
      have hclean := Reading.clean_of_minify hagain
      obtain ⟨-, rfl⟩ := minify_eq_ok_iff.mp h
      rw [Reading.ofText_compact] at hclean
      exact Reading.isChain_of_clean (Reading.fit_read none _) hclean
    · exact minify_of_apart h
  · intro hslash
    apply minify_of_apart h
    rw [List.isChain_iff_getElem]
    intro n hn hn'
    exact absurd (hn' ▸ List.getElem_mem _) hslash

theorem minify_idempotent_iff_slashes :
    minify "a / / b" = .ok "a//b" ∧ minify "a//b" ≠ .ok "a//b" := by
  have h : minify "a / / b" = .ok "a//b" := by
    rw [minify_eq_ok_iff]
    decide +kernel
  refine ⟨h, fun hagain => ?_⟩
  have hapart := (minify_idempotent_iff h).1.mp hagain
  rw [Run.items_eq h] at hapart
  exact absurd hapart (by decide +kernel)

/-- Where no slash that divides came to stand directly before another one or a star, the run over
the result meets no fault and no comment, and recognises the items that the run over the text
recognised. -/
theorem items_preserved {s o : String} (h : minify s = .ok o)
    (hapart : (Run.items s).IsChain Item.Apart) :
    (∃ p, minify o = .ok p) ∧ (∀ x ∈ Run.transcript o, x.isComment = false) ∧
      Run.items o = Run.items s ∧ (report o).log.pop = (report s).log.pop := by
  rw [Run.items_eq h] at hapart ⊢
  have hagain := minify_of_apart h hapart
  rw [Run.items_eq hagain, Run.transcript_eq hagain]
  obtain ⟨hopen, rfl⟩ := minify_eq_ok_iff.mp h
  have hread := Reading.ofText_compact_of_apart hapart
  have hopen' : (Reading.ofText (Layout.compact (Reading.ofText s).lexemes)).leftOpen = none := by
    rw [hread]
  have hitems : (Reading.ofText (Layout.compact (Reading.ofText s).lexemes)).items =
      (Reading.ofText s).items := by
    rw [hread]
    exact Layout.items_kept none .none _
  refine ⟨⟨_, hagain⟩, ?_, hitems, ?_⟩
  · rw [hread]
    exact fun x hx => Layout.isComment_of_mem_kept hx
  · -- The openers are told from the items alone.
    rw [report_of_closed hopen, report_of_closed hopen', Array.pop_push, Array.pop_push]
    rw [Reading.records, Reading.records, Reading.openers, Reading.openers, hopen, hopen', hitems]

theorem items_preserved_mixed :
    minify "\tx = /a b/ in +\n/* 1 */ - y / z // d\n'e'" = .ok "x=/a b/in+\n-y/z'e'" ∧
      Run.items "x=/a b/in+\n-y/z'e'" =
        Run.items "\tx = /a b/ in +\n/* 1 */ - y / z // d\n'e'" := by
  have h : minify "\tx = /a b/ in +\n/* 1 */ - y / z // d\n'e'" = .ok "x=/a b/in+\n-y/z'e'" := by
    rw [minify_eq_ok_iff]
    decide +kernel
  have hapart : (Run.items "\tx = /a b/ in +\n/* 1 */ - y / z // d\n'e'").IsChain Item.Apart := by
    rw [Run.items_eq h]
    decide +kernel
  exact ⟨h, (items_preserved h hapart).2.2.1⟩

end ScriptMinifier
