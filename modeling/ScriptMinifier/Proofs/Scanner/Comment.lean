import ScriptMinifier.Proofs.Scanner.Cursor
import ScriptMinifier.Proofs.Scanner.Lookahead

/-!
Comments in front of a scanner. A token is what the text before the scanner begins with, and a
comment there, however long, is read as one separator. So whoever asks for one token after another
is given the text with its comments stripped.
-/

namespace ScriptMinifier

/-! ## 1. Texts without their comments -/

namespace Comment

/-- The text, folded, with every comment that is found in it from left to right replaced by what it
stands for. If one of them is left open, the text ends there, and the second part is what the text
has from that comment on. -/
def strip : List Char → List Char × Option (List Char)
  | [] => ([], none)
  | '/' :: '/' :: t => strip (t.dropWhile (· ≠ '\n'))
  | '/' :: '*' :: t =>
    match _h : splitBlock? t with
    | some (_, rest) => (strip rest).map (' ' :: ·) id
    | none => ([], some ('/' :: '*' :: t))
  | ch :: t => (strip t).map (CharClass.foldControl ch :: ·) id
termination_by t => t.length
decreasing_by
  · have := (List.dropWhile_sublist (· ≠ '\n') (l := t)).length_le
    simp only [List.length_cons]
    omega
  · rw [eq_append_of_splitBlock? _h]
    simp only [List.length_cons, List.length_append]
    omega
  · exact Nat.lt_succ_self _

theorem strip_nil : strip [] = ([], none) := by
  rw [strip]

theorem strip_of_not_opens {ch : Char} {t : List Char} (h : ¬ Opens (ch :: t)) :
    strip (ch :: t) = (strip t).map (CharClass.foldControl ch :: ·) id := by
  apply strip.eq_4
  · rintro u rfl rfl
    exact h (.inl ⟨u, rfl⟩)
  · rintro u rfl rfl
    exact h (.inr ⟨u, rfl⟩)

theorem strip_line {body : List Char} (h : '\n' ∉ body) (rest : List Char) :
    strip ('/' :: '/' :: (body ++ '\n' :: rest)) = (strip rest).map ('\n' :: ·) id := by
  rw [strip, dropWhile_append h]
  exact strip_of_not_opens (not_opens_of_ne (by decide) rest)

theorem strip_lastLine {body : List Char} (h : '\n' ∉ body) :
    strip ('/' :: '/' :: body) = ([], none) := by
  have hnil := dropWhile_append h []
  rw [List.append_nil] at hnil
  rw [strip, hnil]
  exact strip_nil

theorem strip_block {body : List Char} (h : Body body) (rest : List Char) :
    strip ('/' :: '*' :: (body ++ '*' :: '/' :: rest)) = (strip rest).map (' ' :: ·) id := by
  have hsplit := splitBlock?_of_body h rest
  rw [strip]
  split
  · rename_i heq
    rw [hsplit] at heq
    cases heq
    rfl
  · rename_i heq
    rw [hsplit] at heq
    cases heq

theorem strip_unclosed {t : List Char} (h : ¬ ['*', '/'] <:+: t) :
    strip ('/' :: '*' :: t) = ([], some ('/' :: '*' :: t)) := by
  rw [strip]
  split
  · rename_i heq
    rw [splitBlock?_eq_none_iff.mpr h] at heq
    cases heq
  · rfl

/-! ## 2. One token -/

theorem Taken.strip_of_none {place : Position} {t left : List Char}
    (h : Taken place t (.ok none) left) : strip t = ([], none) := by
  cases h with
  | nil => exact strip_nil
  | lastLine hbody => exact strip_lastLine hbody

theorem Taken.strip_of_error {place : Position} {t left : List Char} {fault : Fault}
    (h : Taken place t (.error fault) left) :
    strip t = ([], some t) ∧ fault = ⟨.comment, place⟩ := by
  cases h with
  | unclosed hend => exact ⟨strip_unclosed hend, rfl⟩

-- Every other token is the first character of what is delivered, and leaves less of the text.
theorem Taken.strip_of_some {place : Position} {t left : List Char} {ch : Char}
    (h : Taken place t (.ok (some ch)) left) :
    strip t = (strip left).map (ch :: ·) id ∧ left.length < t.length := by
  cases h with
  | line hbody =>
    refine ⟨strip_line hbody left, ?_⟩
    simp only [List.length_cons, List.length_append]
    omega
  | block hbody =>
    refine ⟨strip_block hbody left, ?_⟩
    simp only [List.length_cons, List.length_append]
    omega
  | character hopens => exact ⟨strip_of_not_opens hopens, Nat.lt_succ_self _⟩

end Comment

/-! ## 3. One token after another -/

theorem Cursor.ask_verbatim_eq_head? (c : Cursor) : (c.ask .verbatim).1 = c.unread.head? := by
  cases hread : c.read? with
  | none =>
    rw [unread_eq_nil_iff.mpr (read?_eq_none_iff.mp hread)]
    simp [ask, hread]
  | some p =>
    rw [(reads_of_read? (show c.read? = some (p.1, p.2) from hread)).unread]
    simp [ask, hread]

namespace Scanner

variable {σ τ : Type}

/-- Asked for tokens until there is none or a fault is met, the scanner delivers these characters
from `s` on, and that fault. -/
inductive Delivers (S : Scanner σ) : σ → List Char → Option Fault → Prop where
  | done {s : σ} (token : (S.token s).1 = .ok none) : Delivers S s [] none
  | failed {s : σ} {fault : Fault} (token : (S.token s).1 = .error fault) :
      Delivers S s [] (some fault)
  | next {s : σ} {ch : Char} {t : List Char} {fault : Option Fault}
      (token : (S.token s).1 = .ok (some ch)) (rest : Delivers S (S.token s).2 t fault) :
      Delivers S s (ch :: t) fault

/-- The fault that names the comment with which the last part `t` of the text begins. -/
def openComment (text : String) (t : List Char) : Fault :=
  ⟨.comment, LineBreak.place text.toList
    ((LineBreak.normalize text.toList).length - t.length)⟩

theorem openComment_eq {text : String} {before t : List Char}
    (h : LineBreak.normalize text.toList = before ++ t) :
    openComment text t = ⟨.comment, LineBreak.place text.toList before.length⟩ := by
  rw [openComment, h, List.length_append, Nat.add_sub_cancel]

/-- What a scanner that stands at `s` in the text does with comments. -/
structure Strips (S : Scanner σ) (text : String) (s : σ) : Prop where
  taken : ∃ before, LineBreak.normalize text.toList = before ++ S.unread s ∧
    Comment.Taken (LineBreak.place text.toList before.length) (S.unread s) (S.token s).1
      (S.unread (S.token s).2)
  /-- Nothing that was looked at for the sake of the token is lost, nor has it been folded. -/
  verbatim : S.verbatim (S.token s).2 = (S.unread (S.token s).2).head?
  delivers : S.Delivers s (Comment.strip (S.unread s)).1
    ((Comment.strip (S.unread s)).2.map (openComment text))

theorem delivers_of_taken {S : Scanner σ} {text : String}
    (h : ∀ s, S.Reached text s → ∃ before,
      LineBreak.normalize text.toList = before ++ S.unread s ∧
        Comment.Taken (LineBreak.place text.toList before.length) (S.unread s) (S.token s).1
          (S.unread (S.token s).2))
    {s : σ} (hs : S.Reached text s) :
    S.Delivers s (Comment.strip (S.unread s)).1
      ((Comment.strip (S.unread s)).2.map (openComment text)) := by
  induction hn : (S.unread s).length using Nat.strongRecOn generalizing s with
  | ind n ih =>
    obtain ⟨before, htext, htaken⟩ := h s hs
    cases houtcome : (S.token s).1 with
    | error fault =>
      rw [houtcome] at htaken
      obtain ⟨hstrip, rfl⟩ := htaken.strip_of_error
      rw [hstrip, Option.map_some, openComment_eq htext]
      exact .failed houtcome
    | ok token =>
      rw [houtcome] at htaken
      cases token with
      | none =>
        rw [htaken.strip_of_none]
        exact .done houtcome
      | some ch =>
        obtain ⟨hstrip, hlt⟩ := htaken.strip_of_some
        rw [hstrip]
        exact .next houtcome (ih _ (hn ▸ hlt) hs.token rfl)

end Scanner

namespace Cursor

theorem exists_taken {text : String} {c : Cursor} (h : scanner.Reached text c) :
    ∃ before, LineBreak.normalize text.toList = before ++ c.unread ∧
      Comment.Taken (LineBreak.place text.toList before.length) c.unread c.token.outcome
        c.token.cursor.unread := by
  obtain ⟨before, htext, hnext⟩ := exists_place_of_reached h
  exact ⟨before, htext, hnext ▸ c.token_spec.2⟩

theorem strips {text : String} {c : Cursor} (h : scanner.Reached text c) :
    scanner.Strips text c where
  taken := exists_taken h
  verbatim := c.token.cursor.ask_verbatim_eq_head?
  delivers := Scanner.delivers_of_taken (S := scanner) (fun _ => exists_taken) h

end Cursor

namespace Scanner.Simulates

variable {σ τ : Type} {S : Scanner σ} {T : Scanner τ} {Alike : σ → τ → Prop}

theorem delivers (h : S.Simulates T Alike) {s : σ} {t : τ} (hst : Alike s t) {chars : List Char}
    {fault : Option Fault} (ht : T.Delivers t chars fault) : S.Delivers s chars fault := by
  induction ht generalizing s with
  | done htoken => exact .done ((h.token hst).1.trans htoken)
  | failed htoken => exact .failed ((h.token hst).1.trans htoken)
  | next htoken _ ih => exact .next ((h.token hst).1.trans htoken) (ih (h.token hst).2)

theorem strips (h : S.Simulates T Alike) {text : String} {s : σ} {t : τ} (hst : Alike s t)
    (ht : T.Strips text t) : S.Strips text s where
  taken := by
    rw [h.unread hst, (h.token hst).1, h.unread (h.token hst).2]
    exact ht.taken
  verbatim := by
    rw [h.verbatim (h.token hst).2, h.unread (h.token hst).2]
    exact ht.verbatim
  delivers := by
    rw [h.unread hst]
    exact h.delivers hst ht.delivers

end Scanner.Simulates

/-- Wherever a row of calls has left it, whether these went well or not, and whether the cell is
empty or not, a scanner takes each comment as its separator, or names it if it is left open, and any
other character as itself, folded. Asked for one token after another, it delivers the rest of the
text with its comments stripped. -/
theorem token_strips_comments (text : String) :
    (∀ c, Cursor.scanner.Reached text c → Cursor.scanner.Strips text c) ∧
      ∀ s, Lookahead.scanner.Reached text s → Lookahead.scanner.Strips text s := by
  constructor
  · exact fun c => Cursor.strips
  · intro s hreached
    obtain ⟨c, hc, hholds⟩ := Lookahead.scanner_simulates.exists_reached hreached
    exact Lookahead.scanner_simulates.strips hholds (Cursor.strips hc)

-- Behind the first slash, a tab waits in the cell. The slash behind the opening star does not end
-- the comment that this opens, and the last comment has no end.
theorem token_strips_comments_behind_slash :
    ∃ s, Lookahead.scanner.Reached "/\t/*/ b*/c//'\n/*d" s ∧ s.cell = some ('\t', ⟨1, 2⟩) ∧
      Lookahead.scanner.verbatim s = some '\t' ∧
        Lookahead.scanner.Delivers s [' ', ' ', 'c', '\n'] (some ⟨.comment, ⟨2, 1⟩⟩) := by
  have hstart := (token_strips_comments "/\t/*/ b*/c//'\n/*d").2 _ .start
  have hnext := (token_strips_comments "/\t/*/ b*/c//'\n/*d").2 _ (.token .start)
  refine ⟨_, .token .start, by decide +kernel, hstart.verbatim.trans (by decide +kernel), ?_⟩
  have hstrip : Comment.strip (Lookahead.scanner.unread
      (Lookahead.scanner.token (Lookahead.scanner.ofText "/\t/*/ b*/c//'\n/*d")).2) =
      ([' ', ' ', 'c', '\n'], some ['/', '*', 'd']) := by decide +kernel
  have hfault : Scanner.openComment "/\t/*/ b*/c//'\n/*d" ['/', '*', 'd'] =
      ⟨.comment, ⟨2, 1⟩⟩ := by decide +kernel
  have hdelivers := hnext.delivers
  rw [hstrip, Option.map_some, hfault] at hdelivers
  exact hdelivers

end ScriptMinifier
