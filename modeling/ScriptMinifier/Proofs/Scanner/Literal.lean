import ScriptMinifier.Proofs.Scanner.Cursor
import ScriptMinifier.Proofs.Scanner.Lookahead

/-!
Copies of literals. Wherever a scanner stands, it copies exactly the bodies of literals, unchanged,
and what it leaves is the text behind the delimiter. Where no body comes, it fails, and leaves the
text behind the line break that broke the literal off.
-/

namespace ScriptMinifier

/-! ## 1. Bodies in a text -/

namespace Literal

theorem split_unique {close : Char} (hclose : close ≠ '\\') {body body' rest rest' : List Char}
    (hbody : Body close body) (hbody' : Body close body')
    (h : body ++ close :: rest = body' ++ close :: rest') : body = body' ∧ rest = rest' := by
  have hsplit := split?_of_body hclose hbody rest
  rw [h, split?_of_body hclose hbody' rest'] at hsplit
  cases hsplit
  exact ⟨rfl, rfl⟩

theorem split?_eq_some_iff {close : Char} (hclose : close ≠ '\\') {t body rest : List Char} :
    split? close t = some (body, rest) ↔ Body close body ∧ t = body ++ close :: rest := by
  constructor
  · intro h
    exact ⟨body_of_split? h, eq_append_of_split? h⟩
  · rintro ⟨hbody, rfl⟩
    exact split?_of_body hclose hbody rest

/-- What a copy makes of the text `t` behind the opening delimiter of a literal, where the character
that was read last stands at `opened`: its outcome, and the text that it leaves. -/
structure Copied (kind : Kind) (out : String) (opened : Position) (t : List Char)
    (outcome : Except Fault String) (left : List Char) : Prop where
  ok_iff : (∃ copied, outcome = .ok copied) ↔
    ∃ body rest, Body kind.close body ∧ t = body ++ kind.close :: rest
  unique : ∀ body rest body' rest', Body kind.close body → Body kind.close body' →
    t = body ++ kind.close :: rest → t = body' ++ kind.close :: rest' →
      body = body' ∧ rest = rest'
  of_body : ∀ body rest, Body kind.close body → t = body ++ kind.close :: rest →
    outcome = .ok (String.ofList (out.toList ++ kind.opening ++ body)) ∧ left = rest
  /-- The text is broken off by a line break that no backslash takes, or by its end, where a
  backslash may have nothing to take. -/
  of_unclosed : (¬ ∃ body rest, Body kind.close body ∧ t = body ++ kind.close :: rest) →
    outcome = .error ⟨kind.construct, opened⟩ ∧ ∃ body, Body kind.close body ∧
      (t = body ++ '\n' :: left ∨ (t = body ∨ t = body ++ ['\\']) ∧ left = [])

end Literal

/-! ## 2. Copies -/

namespace Cursor

theorem copy_of_body {kind : Literal.Kind} (hclose : kind.close ≠ '\\') {c : Cursor}
    {body rest : List Char} (hbody : Literal.Body kind.close body)
    (h : c.unread = body ++ kind.close :: rest) (out : String) :
    (c.copy kind out).outcome = .ok (String.ofList (out.toList ++ kind.opening ++ body)) ∧
      (c.copy kind out).cursor.unread = rest := by
  have hsplit := (Literal.split?_eq_some_iff hclose).mpr ⟨hbody, h⟩
  obtain ⟨copied, d, hcopy, htext, hreads⟩ :=
    @copyLiteral_of_split? kind.construct kind.close c
      (String.ofList (out.toList ++ kind.opening)) body rest hsplit
  rw [copy_eq, hcopy]
  constructor
  · rw [← String.ofList_toList (s := copied), htext, String.toList_ofList]
  · apply hreads.unread_eq
    rw [h]
    simp

theorem copy_of_error {kind : Literal.Kind} {c : Cursor} {out : String} {fault : Fault}
    (h : (c.copy kind out).outcome = .error fault) :
    fault = ⟨kind.construct, c.last⟩ ∧ ∃ body, Literal.Body kind.close body ∧
      (c.unread = body ++ '\n' :: (c.copy kind out).cursor.unread ∨
        (c.unread = body ∨ c.unread = body ++ ['\\']) ∧ (c.copy kind out).cursor.unread = []) := by
  rw [copy_eq] at h ⊢
  obtain ⟨hfault, hnone, hcursor⟩ := copyLiteral_of_error h
  obtain ⟨body, hbody, hreads | ⟨hunread, hreads⟩⟩ := copyBody_of_unclosed hnone
  · refine ⟨hfault, body, hbody, .inl ?_⟩
    rw [hcursor, hreads.unread, List.append_assoc]
    rfl
  · refine ⟨hfault, body, hbody, .inr ⟨hunread, ?_⟩⟩
    rw [hcursor]
    exact hreads.unread_eq_nil

theorem copied {kind : Literal.Kind} (hclose : kind.close ≠ '\\') (out : String) (c : Cursor) :
    Literal.Copied kind out c.last c.unread (c.copy kind out).outcome
      (c.copy kind out).cursor.unread where
  ok_iff := by
    constructor
    · rintro ⟨copied, hcopied⟩
      rw [copy_eq] at hcopied
      obtain ⟨body, hsplit, -, -⟩ := split?_of_copyLiteral hcopied
      exact ⟨body, _, (Literal.split?_eq_some_iff hclose).mp hsplit⟩
    · rintro ⟨body, rest, hbody, hunread⟩
      exact ⟨_, (copy_of_body hclose hbody hunread out).1⟩
  unique body rest body' rest' hbody hbody' h h' :=
    Literal.split_unique hclose hbody hbody' (h.symm.trans h')
  of_body body rest hbody hunread := copy_of_body hclose hbody hunread out
  of_unclosed hnone := by
    cases hcopy : (c.copy kind out).outcome with
    | ok copied =>
      rw [copy_eq] at hcopy
      obtain ⟨body, hsplit, -, -⟩ := split?_of_copyLiteral hcopy
      exact absurd ⟨body, _, (Literal.split?_eq_some_iff hclose).mp hsplit⟩ hnone
    | error fault =>
      obtain ⟨rfl, hleft⟩ := copy_of_error hcopy
      exact ⟨rfl, hleft⟩

end Cursor

/-- Wherever a row of calls has left it, whether these went well or not, and whether the cell is
empty or not, a scanner copies a literal exactly if the text before it is a body with its delimiter
behind it. -/
theorem copy_accepts_bodies (text : String) (kind : Literal.Kind) (hclose : kind.close ≠ '\\')
    (out : String) :
    (∀ c, Cursor.scanner.Reached text c →
      c.unread <:+ LineBreak.normalize text.toList ∧
        Literal.Copied kind out c.last c.unread (c.copy kind out).outcome
          (c.copy kind out).cursor.unread) ∧
      ∀ s, Lookahead.scanner.Reached text s →
        s.unread <:+ LineBreak.normalize text.toList ∧
          Literal.Copied kind out s.last s.unread (s.copy kind out).1
            (s.copy kind out).2.unread := by
  have hcursor (c : Cursor) (hreached : Cursor.scanner.Reached text c) :
      c.unread <:+ LineBreak.normalize text.toList := by
    obtain ⟨before, htext, -⟩ := Cursor.exists_place_of_reached hreached
    exact ⟨before, htext.symm⟩
  constructor
  · intro c hreached
    exact ⟨hcursor c hreached, Cursor.copied hclose out c⟩
  · intro s hreached
    obtain ⟨c, hc, hholds⟩ := Lookahead.scanner_simulates.exists_reached hreached
    obtain ⟨houtcome, honward⟩ := Lookahead.scanner_simulates.copy kind out hholds
    change (s.copy kind out).1 = (c.copy kind out).outcome at houtcome
    change Lookahead.Holds (s.copy kind out).2 (c.copy kind out).cursor at honward
    rw [hholds.unread_eq, hholds.last, houtcome, honward.unread_eq]
    exact ⟨hcursor c hc, Cursor.copied hclose out c⟩

-- The first copy fails at the line break. Behind the slash, a tab waits in the cell.
theorem copy_accepts_bodies_behind_fault :
    (∃ c, Cursor.scanner.Reached "'a\n/\tb\\/c/ d" c ∧ (Literal.Kind.string '\'').close ≠ '\\' ∧
      (c.copy (.string '\'') "x=").outcome = .error ⟨.string, ⟨1, 1⟩⟩) ∧
    ∃ s, Lookahead.scanner.Reached "'a\n/\tb\\/c/ d" s ∧ Literal.Kind.regex.close ≠ '\\' ∧
      s.cell = some ('\t', ⟨2, 2⟩) ∧ (s.copy .regex "x=/").1 = .ok "x=/\tb\\/c" ∧
        (s.copy .regex "x=/").2.unread = [' ', 'd'] := by
  constructor
  · have hreached : Cursor.scanner.Reached "'a\n/\tb\\/c/ d" _ := .token .start
    have hnone : Literal.split? '\''
        (Cursor.ofText "'a\n/\tb\\/c/ d").token.cursor.unread = none := by
      decide +kernel
    have hcopied := ((copy_accepts_bodies _ (.string '\'') (by decide) "x=").1 _ hreached).2
    obtain ⟨houtcome, -⟩ := hcopied.of_unclosed (by
      rintro ⟨body, rest, hbody⟩
      have hsome := (Literal.split?_eq_some_iff (by decide)).mpr hbody
      exact absurd (hnone.symm.trans hsome) (by simp))
    exact ⟨_, hreached, by decide, houtcome.trans (by decide +kernel)⟩
  · have hreached : Lookahead.scanner.Reached "'a\n/\tb\\/c/ d" _ :=
      .token (.copy (.token .start) (.string '\'') "")
    have hbody : Literal.Body '/' ['\t', 'b', '\\', '/', 'c'] :=
      @Literal.body_of_split? '/' ['\t', 'b', '\\', '/', 'c', '/'] _ [] (by decide)
    have hcopied := ((copy_accepts_bodies _ .regex (by decide) "x=/").2 _ hreached).2
    obtain ⟨houtcome, hleft⟩ := hcopied.of_body _ [' ', 'd'] hbody (by decide +kernel)
    exact ⟨_, hreached, by decide, by decide +kernel, houtcome.trans (by decide +kernel), hleft⟩

end ScriptMinifier
