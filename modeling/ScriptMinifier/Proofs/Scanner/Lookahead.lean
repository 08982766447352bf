import ScriptMinifier.Proofs.CharClass
import ScriptMinifier.Proofs.Scanner.Basic

/-!
The cell in a scanner. Whether the character that comes next waits in the cell or not, tokens and
literals are read as a plain cursor reads them: each loop goes round with the cursor, one round for
each character or each unit, and is left where the cursor stops.
-/

namespace ScriptMinifier

namespace Lookahead

variable {s : Lookahead} {c d : Cursor} {ch : Char}

/-! ## 1. One character -/

theorem Holds.unread_eq (h : Holds s c) : s.unread = c.unread := by
  cases hcell : s.cell with
  | none =>
    rw [h.empty hcell]
    rfl
  | some p =>
    obtain ⟨ch, place⟩ := p
    rw [unread, hcell, Cursor.unread, Cursor.normalize_rest_of_read? (h.full ch place hcell)]
    rfl

theorem Holds.ask_eq (h : Holds s c) {q : Query} {x : Option Char} (hask : c.ask q = (x, d)) :
    ∃ t, s.ask q = (x, t) ∧ Holds t d := by
  have hchar : (s.ask q).1 = (c.ask q).1 := simulates_cursor.char q h
  have honward : Holds (s.ask q).2 (c.ask q).2 := simulates_cursor.onward q h
  rw [hask] at hchar honward
  exact ⟨(s.ask q).2, Prod.ext hchar rfl, honward⟩

-- At the end of the text no query brings anything.
theorem Holds.ask_of_none (h : Holds s c) (hread : c.read? = none) (q : Query) :
    ∃ t, s.ask q = (none, t) ∧ Holds t c := by
  apply h.ask_eq
  cases q <;> simp [Cursor.ask, Cursor.readFolded?, Cursor.peek?, hread]

theorem Holds.ask_verbatim (h : Holds s c) (hread : c.read? = some (ch, d)) :
    ∃ t, s.ask .verbatim = (some ch, t) ∧ Holds t d :=
  h.ask_eq (by simp [Cursor.ask, hread])

theorem Holds.ask_folded (h : Holds s c) (hread : c.read? = some (ch, d)) :
    ∃ t, s.ask .folded = (some (CharClass.foldControl ch), t) ∧ Holds t d :=
  h.ask_eq (by simp [Cursor.ask, Cursor.readFolded?, hread])

-- A look ahead leaves the text as it is, and only fills the cell.
theorem Holds.ask_ahead (h : Holds s c) : ∃ t, s.ask .ahead = (c.peek?, t) ∧ Holds t c :=
  h.ask_eq rfl

/-! ## 2. Comments -/

theorem Holds.lineLoop (h : Holds s c) :
    ∃ t, lineLoop.run s = (c.skipLine.1, t) ∧ Holds t c.skipLine.2 := by
  fun_induction Cursor.skipLine c generalizing s with
  | case1 c hread =>
    obtain ⟨t, hask, ht⟩ := h.ask_of_none hread .folded
    refine ⟨t, Loop.run_of_done ?_, ht⟩
    simp [Lookahead.lineLoop, hask]
  | case2 c d hread =>
    obtain ⟨t, hask, ht⟩ := h.ask_folded hread
    refine ⟨t, Loop.run_of_done ?_, ht⟩
    simp [Lookahead.lineLoop, hask]
  | case3 c ch d hread hne ih =>
    obtain ⟨t, hask, ht⟩ := h.ask_folded hread
    have hfold : CharClass.foldControl ch ≠ '\n' :=
      (not_congr (CharClass.foldControl_eq_iff (.inl rfl))).mpr hne
    rw [Loop.run_of_again (t := t) (by simp [Lookahead.lineLoop, hask, hfold])]
    exact ih ht

theorem peek?_eq_some_iff {x : Char} (hx : ' ' < x) :
    c.peek? = some x ↔ c.unread.head? = some x := by
  cases hread : c.read? with
  | none =>
    have hnil := Cursor.unread_eq_nil_iff.mpr (Cursor.read?_eq_none_iff.mp hread)
    simp [Cursor.peek?, Cursor.readFolded?, hread, hnil]
  | some p =>
    obtain ⟨ch, d⟩ := p
    rw [(Cursor.reads_of_read? hread).unread]
    simpa [Cursor.peek?, Cursor.readFolded?, hread] using CharClass.foldControl_eq_iff (.inr hx)

-- The slash behind a star is looked at first. If none is there, what is there stays in the cell.
theorem Holds.blockLoop (h : Holds s c) :
    ∃ t, blockLoop.run s = (c.skipBlock.1, t) ∧ Holds t c.skipBlock.2 := by
  fun_induction Cursor.skipBlock c generalizing s with
  | case1 c hread =>
    obtain ⟨t, hask, ht⟩ := h.ask_of_none hread .folded
    refine ⟨t, Loop.run_of_done ?_, ht⟩
    simp [Lookahead.blockLoop, hask]
  | case2 c ch d hread e hclose =>
    obtain ⟨rfl, hslash⟩ : ch = '*' ∧ d.readSlash? = some e := by
      split at hclose
      · exact ⟨by assumption, hclose⟩
      · cases hclose
    have hread' := Cursor.read?_of_readSlash? hslash
    obtain ⟨t, hask, ht⟩ := h.ask_folded hread
    obtain ⟨u, hask', hu⟩ := ht.ask_ahead
    obtain ⟨v, hask'', hv⟩ := hu.ask_folded hread'
    have hpeek : d.peek? = some '/' := by
      rw [peek?_eq_some_iff (by decide), (Cursor.reads_of_read? hread').unread]
      rfl
    refine ⟨v, Loop.run_of_done ?_, hv⟩
    have hstar : CharClass.foldControl '*' = '*' := rfl
    simp [Lookahead.blockLoop, hask, hask', hask'', hpeek, hstar]
  | case3 c ch d hread hopen ih =>
    obtain ⟨t, hask, ht⟩ := h.ask_folded hread
    by_cases hstar : ch = '*'
    · subst hstar
      obtain ⟨u, hask', hu⟩ := ht.ask_ahead
      have hpeek : d.peek? ≠ some '/' := by
        rw [Ne, peek?_eq_some_iff (by decide)]
        rw [dif_pos rfl] at hopen
        exact Cursor.readSlash?_eq_none_iff.mp hopen
      have hfold : CharClass.foldControl '*' = '*' := rfl
      rw [Loop.run_of_again (t := u) (by simp [Lookahead.blockLoop, hask, hask', hpeek, hfold])]
      exact ih hu
    · have hfold : CharClass.foldControl ch ≠ '*' :=
        (not_congr (CharClass.foldControl_eq_iff (.inr (by decide)))).mpr hstar
      rw [Loop.run_of_again (t := t) (by simp [Lookahead.blockLoop, hask, hfold])]
      exact ih ht

/-! ## 3. Literals -/

theorem Holds.copyLoop (h : Holds s c) (close : Char) (out : String) :
    ∃ t, (copyLoop close).run (s, out) = ((c.copyBody close out).1, t) ∧
      Holds t (c.copyBody close out).2 := by
  fun_induction Cursor.copyBody close c out generalizing s with
  | case1 c out hread =>
    obtain ⟨t, hask, ht⟩ := h.ask_of_none hread .verbatim
    refine ⟨t, Loop.run_of_done ?_, ht⟩
    simp [Lookahead.copyLoop, hask]
  | case2 c out d hread =>
    obtain ⟨t, hask, ht⟩ := h.ask_verbatim hread
    refine ⟨t, Loop.run_of_done ?_, ht⟩
    simp [Lookahead.copyLoop, hask]
  | case3 c out d hread hclose =>
    obtain ⟨t, hask, ht⟩ := h.ask_verbatim hread
    refine ⟨t, Loop.run_of_done ?_, ht⟩
    simp [Lookahead.copyLoop, hask, hclose]
  | case4 c out d hread' hread hclose =>
    obtain ⟨t, hask, ht⟩ := h.ask_verbatim hread
    obtain ⟨u, hask', hu⟩ := ht.ask_of_none hread' .verbatim
    refine ⟨u, Loop.run_of_done ?_, hu⟩
    simp [Lookahead.copyLoop, hask, hask', hclose]
  | case5 c out d escaped e hread' hread hclose hnewline ih =>
    obtain ⟨t, hask, ht⟩ := h.ask_verbatim hread
    obtain ⟨u, hask', hu⟩ := ht.ask_verbatim hread'
    rw [Loop.run_of_again (t := (u, (out.push '\\').push escaped))
      (by simp [Lookahead.copyLoop, hask, hask', hclose])]
    exact ih hu
  | case6 c out ch d hread hclose hnewline hescape ih =>
    obtain ⟨t, hask, ht⟩ := h.ask_verbatim hread
    rw [Loop.run_of_again (t := (t, out.push ch))
      (by simp [Lookahead.copyLoop, hask, hclose, hnewline, hescape])]
    exact ih ht

theorem Holds.copyLiteral (h : Holds s c) (k : Construct) (close : Char) (out : String) :
    (s.copyLiteral k close out).1 = (c.copyLiteral k close out).outcome ∧
      Holds (s.copyLiteral k close out).2 (c.copyLiteral k close out).cursor := by
  obtain ⟨t, hrun, ht⟩ := h.copyLoop close out
  rw [Lookahead.copyLiteral, hrun, Cursor.copyLiteral, h.last]
  generalize c.copyBody close out = result at ht ⊢
  obtain ⟨copied, d⟩ := result
  cases copied with
  | none => exact ⟨rfl, ht⟩
  | some copied => exact ⟨rfl, ht⟩

/-! ## 4. Tokens -/

-- What the slash begins is told from the character behind it, which is looked at.
theorem Holds.token_slash (h : Holds s c) (hread : c.read? = some ('/', d)) :
    s.token.1 = c.token.outcome ∧ Holds s.token.2 c.token.cursor := by
  obtain ⟨t, hask, ht⟩ := h.ask_folded hread
  obtain ⟨u, hask', hu⟩ := ht.ask_ahead
  have hfold : CharClass.foldControl '/' = '/' := rfl
  have hslash := @peek?_eq_some_iff d '/' (by decide)
  have hstar := @peek?_eq_some_iff d '*' (by decide)
  cases hread' : d.read? with
  | none =>
    have hnil : d.unread = [] := Cursor.unread_eq_nil_iff.mpr (Cursor.read?_eq_none_iff.mp hread')
    have htoken : c.token = ⟨.ok (some '/'), d⟩ := by simp [Cursor.token, hread, hread']
    rw [hnil] at hslash hstar
    rw [htoken]
    simpa [Lookahead.token, hask, hask', hfold, hslash, hstar] using hu
  | some p =>
    obtain ⟨ch, e⟩ := p
    rw [(Cursor.reads_of_read? hread').unread] at hslash hstar
    by_cases hline : ch = '/'
    · subst hline
      -- The second slash is still in the cell when the comment is skipped.
      obtain ⟨v, hrun, hv⟩ := hu.lineLoop
      have hskip : d.skipLine = e.skipLine := by
        rw [Cursor.skipLine_of_read? hread', if_neg (by decide)]
      rw [hskip] at hrun hv
      rw [Cursor.token_of_slashes hread hread']
      simpa [Lookahead.token, hask, hask', hfold, hslash, hrun] using hv
    by_cases hblock : ch = '*'
    · subst hblock
      obtain ⟨v, hask'', hv⟩ := hu.ask_folded hread'
      obtain ⟨w, hrun, hw⟩ := hv.blockLoop
      rw [Cursor.token_of_bracket hread hread']
      simpa [Lookahead.token, hask, hask', hask'', hfold, hslash, hstar, hrun, ht.last] using hw
    · rw [Cursor.token_of_slash hread hread' hline hblock]
      simpa [Lookahead.token, hask, hask', hfold, hslash, hstar, hline, hblock] using hu

theorem Holds.token (h : Holds s c) :
    s.token.1 = c.token.outcome ∧ Holds s.token.2 c.token.cursor := by
  cases hread : c.read? with
  | none =>
    obtain ⟨t, hask, ht⟩ := h.ask_of_none hread .folded
    rw [Cursor.token_of_rest_eq_nil (Cursor.read?_eq_none_iff.mp hread)]
    simpa [Lookahead.token, hask] using ht
  | some p =>
    obtain ⟨ch, d⟩ := p
    by_cases hslash : ch = '/'
    · subst hslash
      exact h.token_slash hread
    · obtain ⟨t, hask, ht⟩ := h.ask_folded hread
      have hfold : CharClass.foldControl ch ≠ '/' :=
        (not_congr (CharClass.foldControl_eq_iff (.inr (by decide)))).mpr hslash
      rw [Cursor.token_of_read? hread hslash]
      simpa [Lookahead.token, hask, hfold] using ht

/-- A scanner with a cell answers every call as one without. -/
theorem scanner_simulates : scanner.Simulates Cursor.scanner Holds where
  ofText text := holds_ofCursor (.ofText text)
  verbatim h := simulates_cursor.char .verbatim h
  last h := h.last
  unread h := h.unread_eq
  token h := h.token
  copy {s c} kind out h := by
    show (s.copy kind out).1 = _ ∧ Holds (s.copy kind out).2 _
    rw [copy_eq]
    show _ = (c.copy kind out).outcome ∧ Holds _ (c.copy kind out).cursor
    rw [Cursor.copy_eq]
    exact h.copyLiteral _ _ _

end Lookahead

end ScriptMinifier
