import ScriptMinifier.Cursor.Literal
import ScriptMinifier.Cursor.Token
import ScriptMinifier.Proofs.Closing
import ScriptMinifier.Proofs.LineBreak

/-!
What a cursor reads, said of the normalised text in front of it. A cursor takes the characters of
that text one by one; a scan takes a comment, the body of a literal or a single character off it,
as the splits of the text tell.
-/

namespace ScriptMinifier.Cursor

/-- The text that is still to be read, with its line breaks normalised. -/
def unread (c : Cursor) : List Char := LineBreak.normalize c.rest

/-- Reading the characters `t` leads from `c` to `d`. -/
structure Reads (c : Cursor) (t : List Char) (d : Cursor) : Prop where
  unread : c.unread = t ++ d.unread
  next : d.next = c.next.advance t
  last : d.last = if t = [] then c.last else c.next.advance t.dropLast

theorem Reads.refl (c : Cursor) : c.Reads [] c := ⟨rfl, rfl, rfl⟩

theorem Reads.trans {c d e : Cursor} {s t : List Char} (first : c.Reads s d)
    (second : d.Reads t e) : c.Reads (s ++ t) e where
  unread := by rw [first.unread, second.unread, List.append_assoc]
  next := by rw [second.next, first.next, Position.advance_append]
  last := by
    rw [second.last]
    by_cases ht : t = []
    · rw [if_pos ht, first.last, ht, List.append_nil]
    · rw [if_neg ht, if_neg (List.append_ne_nil_of_right_ne_nil s ht), first.next,
        List.dropLast_append_of_ne_nil ht, Position.advance_append]

-- The place of the character that was read last is where all before it leads.
theorem Reads.last_eq {c d : Cursor} {s : List Char} {ch : Char} (h : c.Reads (s ++ [ch]) d) :
    d.last = c.next.advance s := by
  rw [h.last, if_neg (by simp), List.dropLast_concat]

-- Two cursors that a text of one length leads to have the same text before them.
theorem Reads.unread_eq {c d : Cursor} {t u : List Char} (h : c.Reads t d)
    (hu : c.unread = t ++ u) : d.unread = u :=
  List.append_cancel_left (h.unread.symm.trans hu)

-- The text that is left tells what was read.
theorem Reads.of_unread {c d : Cursor} {t u : List Char} (h : c.Reads t d)
    (hu : c.unread = u ++ d.unread) : c.Reads u d := by
  obtain rfl : t = u := List.append_cancel_right (h.unread.symm.trans hu)
  exact h

theorem Reads.unread_eq_nil {c d : Cursor} (h : c.Reads c.unread d) : d.unread = [] :=
  h.unread_eq (List.append_nil _).symm

/-! ## 1. Single characters -/

theorem unread_eq_nil_iff {c : Cursor} : c.unread = [] ↔ c.rest = [] := by
  constructor
  · intro h
    rw [← read?_eq_none_iff]
    cases hread : c.read? with
    | none => rfl
    | some p =>
      rw [unread, normalize_rest_of_read? (show c.read? = some (p.1, p.2) from hread)] at h
      cases h
  · intro h
    rw [unread, h]
    rfl

theorem reads_of_read? {c d : Cursor} {ch : Char} (h : c.read? = some (ch, d)) :
    c.Reads [ch] d := by
  refine ⟨normalize_rest_of_read? h, ?_, ?_⟩
  all_goals
    simp only [read?, Option.map_eq_some_iff] at h
    obtain ⟨⟨x, t⟩, _, hd⟩ := h
    cases hd
    rfl

theorem read?_eq_none_of_unread {c : Cursor} (h : c.unread = []) : c.read? = none :=
  read?_eq_none_iff.mpr (unread_eq_nil_iff.mp h)

theorem exists_read?_of_unread {c : Cursor} {ch : Char} {t : List Char}
    (h : c.unread = ch :: t) : ∃ d, c.read? = some (ch, d) ∧ d.unread = t := by
  cases hread : c.read? with
  | none =>
    rw [unread_eq_nil_iff.mpr (read?_eq_none_iff.mp hread)] at h
    cases h
  | some p =>
    obtain ⟨x, d⟩ := p
    have hreads := (reads_of_read? hread).unread
    rw [h] at hreads
    obtain ⟨rfl, rfl⟩ := List.cons.inj hreads
    exact ⟨d, rfl, rfl⟩

/-! ## 2. Comments -/

-- Reading through the end of a line stops behind its newline, or at the end of the text.
theorem skipLine_eq (c : Cursor) :
    c.skipLine.1 = (c.unread.dropWhile (· ≠ '\n')).head? ∧
      c.Reads (c.unread.takeWhile (· ≠ '\n') ++ c.skipLine.1.toList) c.skipLine.2 := by
  fun_induction skipLine c with
  | case1 c h =>
    have hnil : c.unread = [] := unread_eq_nil_iff.mpr (read?_eq_none_iff.mp h)
    rw [hnil]
    exact ⟨rfl, Reads.refl c⟩
  | case2 c d h =>
    have hreads := reads_of_read? h
    rw [hreads.unread]
    exact ⟨rfl, hreads⟩
  | case3 c ch d h hne ih =>
    have hreads := reads_of_read? h
    have hcons : c.unread = ch :: d.unread := hreads.unread
    have htest : decide (ch ≠ '\n') = true := decide_eq_true hne
    simp only [hcons, List.dropWhile_cons, List.takeWhile_cons, htest, if_true]
    exact ⟨ih.1, hreads.trans ih.2⟩

theorem unread_of_readSlash? {c d : Cursor} (h : c.readSlash? = some d) :
    c.Reads ['/'] d :=
  reads_of_read? (read?_of_readSlash? h)

theorem readSlash?_eq_none_iff {c : Cursor} :
    c.readSlash? = none ↔ c.unread.head? ≠ some '/' := by
  cases hunread : c.unread with
  | nil => simp [readSlash?, read?_eq_none_of_unread hunread]
  | cons ch t =>
    obtain ⟨d, hread, _⟩ := exists_read?_of_unread hunread
    by_cases hslash : ch = '/'
    · subst hslash
      simp [readSlash?, hread]
    · have hnone : c.readSlash? = none := by
        unfold readSlash?
        rw [hread]
        split
        · rename_i heq
          cases heq
          exact absurd rfl hslash
        · rfl
      simp [hnone, hslash]

-- Reading through the end of a bracketed comment takes what a split takes, and if there is no end,
-- the whole text.
theorem skipBlock_eq (c : Cursor) :
    match Comment.splitBlock? c.unread with
    | some (body, _) => c.skipBlock.1 = true ∧ c.Reads (body ++ ['*', '/']) c.skipBlock.2
    | none => c.skipBlock.1 = false ∧ c.Reads c.unread c.skipBlock.2 := by
  fun_induction skipBlock c with
  | case1 c h =>
    rw [unread_eq_nil_iff.mpr (read?_eq_none_iff.mp h)]
    exact ⟨rfl, Reads.refl c⟩
  | case2 c ch d h e he =>
    obtain ⟨rfl, hslash⟩ : ch = '*' ∧ d.readSlash? = some e := by
      split at he
      · exact ⟨by assumption, he⟩
      · cases he
    have hreads := (reads_of_read? h).trans (unread_of_readSlash? hslash)
    rw [hreads.unread]
    exact ⟨rfl, hreads⟩
  | case3 c ch d h he ih =>
    have hreads := reads_of_read? h
    have hcons : c.unread = ch :: d.unread := hreads.unread
    -- The star and the slash that would end the comment here are not there.
    have hopen : ∀ t, ch = '*' → d.unread = '/' :: t → False := by
      intro t hstar ht
      rw [dif_pos hstar, readSlash?_eq_none_iff, ht] at he
      exact he rfl
    rw [hcons, Comment.splitBlock?.eq_3 ch d.unread hopen]
    cases hsplit : Comment.splitBlock? d.unread with
    | none =>
      rw [hsplit] at ih
      exact ⟨ih.1, hreads.trans ih.2⟩
    | some p =>
      rw [hsplit] at ih
      exact ⟨ih.1, hreads.trans ih.2⟩

/-! ## 3. Literals -/

-- Copying a body takes what a split takes, and the delimiter behind it.
theorem copyBody_eq (close : Char) (c : Cursor) (out : String) :
    match Literal.split? close c.unread with
    | some (body, _) =>
      ∃ copied, (c.copyBody close out).1 = some copied ∧ copied.toList = out.toList ++ body ∧
        c.Reads (body ++ [close]) (c.copyBody close out).2
    | none => (c.copyBody close out).1 = none := by
  fun_induction copyBody close c out with
  | case1 c out h =>
    rw [unread_eq_nil_iff.mpr (read?_eq_none_iff.mp h)]
    rfl
  | case2 c out d h =>
    have hreads := reads_of_read? h
    have hcons : c.unread = close :: d.unread := hreads.unread
    rw [hcons, Literal.split?_close]
    exact ⟨out, rfl, (List.append_nil _).symm, hreads⟩
  | case3 c out d h hclose =>
    have hcons : c.unread = '\n' :: d.unread := (reads_of_read? h).unread
    rw [hcons, Literal.split?_newline (Ne.symm hclose)]
  | case4 c out d h' h hclose =>
    have hcons : c.unread = '\\' :: d.unread := (reads_of_read? h).unread
    rw [hcons, unread_eq_nil_iff.mpr (read?_eq_none_iff.mp h'), Literal.split?,
      if_neg hclose, if_neg (by decide), if_pos rfl]
  | case5 c out d escaped e h' h hclose _ ih =>
    have hreads := (reads_of_read? h).trans (reads_of_read? h')
    have hcons : c.unread = '\\' :: escaped :: e.unread := hreads.unread
    rw [hcons, Literal.split?_escape (Ne.symm hclose)]
    cases hsplit : Literal.split? close e.unread with
    | none =>
      rw [hsplit] at ih
      exact ih
    | some p =>
      rw [hsplit] at ih
      obtain ⟨copied, hcopied, htext, hrest⟩ := ih
      refine ⟨copied, hcopied, ?_, hreads.trans hrest⟩
      rw [htext, String.toList_push, String.toList_push]
      simp
  | case6 c out ch d h hclose hnewline hescape ih =>
    have hreads := reads_of_read? h
    have hcons : c.unread = ch :: d.unread := hreads.unread
    rw [hcons, Literal.split?_plain hclose hescape hnewline]
    cases hsplit : Literal.split? close d.unread with
    | none =>
      rw [hsplit] at ih
      exact ih
    | some p =>
      rw [hsplit] at ih
      obtain ⟨copied, hcopied, htext, hrest⟩ := ih
      refine ⟨copied, hcopied, ?_, hreads.trans hrest⟩
      rw [htext, String.toList_push]
      simp

variable {k : Construct} {close : Char} {c : Cursor} {out : String}

theorem copyLiteral_of_split? {body rest : List Char}
    (h : Literal.split? close c.unread = some (body, rest)) :
    ∃ copied d, c.copyLiteral k close out = ⟨.ok copied, d⟩ ∧
      copied.toList = out.toList ++ body ∧ c.Reads (body ++ [close]) d := by
  have hcopy := copyBody_eq close c out
  rw [h] at hcopy
  obtain ⟨copied, hcopied, htext, hreads⟩ := hcopy
  refine ⟨copied, (c.copyBody close out).2, ?_, htext, hreads⟩
  unfold copyLiteral
  rw [show c.copyBody close out = (some copied, (c.copyBody close out).2) from
    Prod.ext hcopied rfl]

theorem copyLiteral_of_unclosed (h : Literal.split? close c.unread = none) :
    ∃ d, c.copyLiteral k close out = ⟨.error ⟨k, c.last⟩, d⟩ := by
  have hcopy := copyBody_eq close c out
  rw [h] at hcopy
  refine ⟨(c.copyBody close out).2, ?_⟩
  unfold copyLiteral
  rw [show c.copyBody close out = (none, (c.copyBody close out).2) from Prod.ext hcopy rfl]

theorem split?_of_copyLiteral {copied : String}
    (h : (c.copyLiteral k close out).outcome = .ok copied) :
    ∃ body, Literal.split? close c.unread = some (body, (c.copyLiteral k close out).cursor.unread) ∧
      copied.toList = out.toList ++ body ∧
      c.Reads (body ++ [close]) (c.copyLiteral k close out).cursor := by
  cases hsplit : Literal.split? close c.unread with
  | none =>
    obtain ⟨d, hcopy⟩ := @copyLiteral_of_unclosed k close c out hsplit
    rw [hcopy] at h
    cases h
  | some p =>
    obtain ⟨body, rest⟩ := p
    obtain ⟨copied', d, hcopy, htext, hreads⟩ :=
      @copyLiteral_of_split? k close c out body rest hsplit
    rw [hcopy] at h ⊢
    cases h
    have hd : d.unread = rest := by
      apply hreads.unread_eq
      rw [Literal.eq_append_of_split? hsplit]
      simp
    exact ⟨body, by rw [hd], htext, hreads⟩

/-! ## 4. Tokens -/

-- A comment that the end of its line ends is read together with the newline.
theorem token_of_lineComment {t : List Char} (h : c.unread = '/' :: '/' :: t) :
    ∃ d, c.token = ⟨.ok (t.dropWhile (· ≠ '\n')).head?, d⟩ ∧
      c.Reads ('/' :: '/' :: (t.takeWhile (· ≠ '\n') ++
        (t.dropWhile (· ≠ '\n')).head?.toList)) d := by
  obtain ⟨d, hd, hdt⟩ := exists_read?_of_unread h
  obtain ⟨e, he, rfl⟩ := exists_read?_of_unread hdt
  obtain ⟨hchar, hreads⟩ := skipLine_eq e
  rw [hchar] at hreads
  refine ⟨e.skipLine.2, ?_, ((reads_of_read? hd).trans (reads_of_read? he)).trans hreads⟩
  simp [token, hd, he, hchar]

theorem token_of_line {body rest : List Char} (hbody : '\n' ∉ body)
    (h : c.unread = '/' :: '/' :: (body ++ '\n' :: rest)) :
    ∃ d, c.token = ⟨.ok (some '\n'), d⟩ ∧ c.Reads ('/' :: '/' :: (body ++ ['\n'])) d := by
  obtain ⟨d, htoken, hreads⟩ := token_of_lineComment h
  rw [Comment.dropWhile_append hbody] at htoken hreads
  rw [Comment.takeWhile_append hbody] at hreads
  exact ⟨d, htoken, by simpa using hreads⟩

theorem token_of_lastLine {body : List Char} (hbody : '\n' ∉ body)
    (h : c.unread = '/' :: '/' :: body) :
    ∃ d, c.token = ⟨.ok none, d⟩ ∧ c.Reads c.unread d := by
  obtain ⟨d, htoken, hreads⟩ := token_of_lineComment h
  have hdrop := Comment.dropWhile_append hbody []
  have htake := Comment.takeWhile_append hbody []
  rw [List.append_nil] at hdrop htake
  rw [hdrop] at htoken hreads
  rw [htake, List.takeWhile_nil, List.dropWhile_nil] at hreads
  exact ⟨d, htoken, by simpa [h] using hreads⟩

-- A bracketed comment is read as a space.
theorem token_of_blockComment {t body rest : List Char} (h : c.unread = '/' :: '*' :: t)
    (hsplit : Comment.splitBlock? t = some (body, rest)) :
    ∃ d, c.token = ⟨.ok (some ' '), d⟩ ∧ c.Reads ('/' :: '*' :: (body ++ ['*', '/'])) d := by
  obtain ⟨d, hd, hdt⟩ := exists_read?_of_unread h
  obtain ⟨e, he, rfl⟩ := exists_read?_of_unread hdt
  have hskip := skipBlock_eq e
  rw [hsplit] at hskip
  refine ⟨e.skipBlock.2, ?_,
    ((reads_of_read? hd).trans (reads_of_read? he)).trans hskip.2⟩
  have hpair : e.skipBlock = (true, e.skipBlock.2) := Prod.ext hskip.1 rfl
  simp only [token, hd, he]
  rw [hpair]

theorem token_of_unclosedComment {t : List Char} (h : c.unread = '/' :: '*' :: t)
    (hsplit : Comment.splitBlock? t = none) :
    ∃ d, c.token = ⟨.error ⟨.comment, c.next⟩, d⟩ ∧ c.Reads c.unread d := by
  obtain ⟨d, hd, hdt⟩ := exists_read?_of_unread h
  obtain ⟨e, he, rfl⟩ := exists_read?_of_unread hdt
  have hskip := skipBlock_eq e
  rw [hsplit] at hskip
  rw [h]
  refine ⟨e.skipBlock.2, ?_,
    ((reads_of_read? hd).trans (reads_of_read? he)).trans hskip.2⟩
  have hpair : e.skipBlock = (false, e.skipBlock.2) := Prod.ext hskip.1 rfl
  simp only [token, hd, he]
  rw [hpair, (reads_of_read? hd).last]
  rfl

-- Any other character is read alone.
theorem token_of_not_opens {ch : Char} {t : List Char} (h : c.unread = ch :: t)
    (hopens : ¬ Comment.Opens (ch :: t)) :
    ∃ d, c.token = ⟨.ok (some (CharClass.foldControl ch)), d⟩ ∧ c.Reads [ch] d := by
  obtain ⟨d, hd, hdt⟩ := exists_read?_of_unread h
  refine ⟨d, ?_, reads_of_read? hd⟩
  by_cases hslash : ch = '/'
  · subst hslash
    cases t with
    | nil =>
      simp only [token, hd, read?_eq_none_of_unread hdt]
      rfl
    | cons next t =>
      obtain ⟨e, he, _⟩ := exists_read?_of_unread hdt
      have hnext : ¬ (next = '/' ∨ next = '*') := fun h =>
        hopens (Comment.opens_cons_cons_iff.mpr ⟨rfl, h⟩)
      simp only [token, hd, he]
      split
      · rename_i heq
        cases heq
        exact absurd (.inl rfl) hnext
      · rename_i heq
        cases heq
        exact absurd (.inr rfl) hnext
      · rfl
  · simp [token, hd]

/-! ## 5. Scans from their first character on -/

section FirstCharacter

variable {c d : Cursor} {ch : Char}

theorem skipLine_of_read? (h : c.read? = some (ch, d)) :
    c.skipLine = if ch = '\n' then (some ch, d) else d.skipLine := by
  rw [skipLine]
  split
  · rename_i hnone
    rw [h] at hnone
    cases hnone
  · rename_i hread
    rw [h] at hread
    cases hread
    rfl

theorem skipBlock_of_read? (h : c.read? = some (ch, d)) :
    c.skipBlock =
      (if ch = '*' then d.readSlash? else none).elim d.skipBlock fun e => (true, e) := by
  rw [skipBlock]
  split
  · rename_i hnone
    rw [h] at hnone
    cases hnone
  · rename_i hread
    rw [h] at hread
    cases hread
    cases if ch = '*' then d.readSlash? else none <;> rfl

theorem copyBody_of_read? (h : c.read? = some (ch, d)) (close : Char) (out : String) :
    c.copyBody close out =
      if ch = close then (some out, d)
      else if ch = '\n' then (none, d)
      else if ch = '\\' then
        d.read?.elim (none, d) fun p => p.2.copyBody close ((out.push ch).push p.1)
      else d.copyBody close (out.push ch) := by
  rw [copyBody]
  split
  · rename_i hnone
    rw [h] at hnone
    cases hnone
  · rename_i hread
    rw [h] at hread
    cases hread
    cases d.read? <;> rfl

theorem readSlash?_of_read? (h : c.read? = some (ch, d)) :
    c.readSlash? = if ch = '/' then some d else none := by
  unfold readSlash?
  rw [h]
  split
  · rename_i heq
    cases heq
    rfl
  · rename_i hne
    rw [if_neg]
    rintro rfl
    exact hne d rfl

variable {e : Cursor}

theorem token_of_slashes (h : c.read? = some ('/', d)) (h' : d.read? = some ('/', e)) :
    c.token = ⟨.ok e.skipLine.1, e.skipLine.2⟩ := by
  simp only [token, h, h']

theorem token_of_bracket (h : c.read? = some ('/', d)) (h' : d.read? = some ('*', e)) :
    c.token =
      ⟨if e.skipBlock.1 then .ok (some ' ') else .error ⟨.comment, d.last⟩, e.skipBlock.2⟩ := by
  simp only [token, h, h']
  split
  · rename_i heq
    rw [heq, if_pos rfl]
  · rename_i heq
    rw [heq]
    rfl

theorem token_of_slash (h : c.read? = some ('/', d)) (h' : d.read? = some (ch, e))
    (hline : ch ≠ '/') (hblock : ch ≠ '*') : c.token = ⟨.ok (some '/'), d⟩ := by
  simp only [token, h, h']
  split
  · rename_i heq
    cases heq
    exact absurd rfl hline
  · rename_i heq
    cases heq
    exact absurd rfl hblock
  · rfl

theorem token_of_read? (h : c.read? = some (ch, d)) (hslash : ch ≠ '/') :
    c.token = ⟨.ok (some (CharClass.foldControl ch)), d⟩ := by
  unfold token
  rw [h]
  split
  · rename_i heq
    cases heq
  · rename_i heq
    cases heq
    exact absurd rfl hslash
  · rename_i heq
    cases heq
    rfl

end FirstCharacter

end ScriptMinifier.Cursor
