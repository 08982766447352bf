import ScriptMinifier.Cursor.Lookahead
import ScriptMinifier.Proofs.Scanning

/-!
What a cursor answers. To whoever asks, a text is a row of characters in which only an index moves:
its line breaks are newlines, and each character has its place in the text as it was given. The
same holds if looking ahead takes characters off the text and keeps them in a cell.
-/

namespace ScriptMinifier

/-! ## 1. Readers -/

/-- A way to answer queries. -/
structure Reader (σ : Type) where
  /-- The character that a query brings, and the state behind it. -/
  ask : σ → Query → Option Char × σ
  /-- The place of the character that was read last. -/
  last : σ → Position

namespace Reader

variable {σ τ : Type}

/-- The answers to a row of queries, each asked where the one before it left the state. -/
def answers (r : Reader σ) (s : σ) : List Query → List Answer
  | [] => []
  | q :: qs => ⟨(r.ask s q).1, r.last (r.ask s q).2⟩ :: r.answers (r.ask s q).2 qs

/-- States that are `Alike` answer every query alike, and are left alike. -/
structure Simulates (r : Reader σ) (u : Reader τ) (Alike : σ → τ → Prop) : Prop where
  last : ∀ {s t}, Alike s t → r.last s = u.last t
  char : ∀ {s t} (q : Query), Alike s t → (r.ask s q).1 = (u.ask t q).1
  onward : ∀ {s t} (q : Query), Alike s t → Alike (r.ask s q).2 (u.ask t q).2

theorem Simulates.answers_eq {r : Reader σ} {u : Reader τ} {Alike : σ → τ → Prop}
    (h : r.Simulates u Alike) {s : σ} {t : τ} (hst : Alike s t) (queries : List Query) :
    r.answers s queries = u.answers t queries := by
  induction queries generalizing s t with
  | nil => rfl
  | cons q queries ih =>
    have honward := h.onward q hst
    rw [answers, answers, h.char q hst, h.last honward, ih honward]

end Reader

def Cursor.reader : Reader Cursor := ⟨ask, last⟩

def Lookahead.reader : Reader Lookahead := ⟨ask, last⟩

theorem Cursor.answers_eq_reader (c : Cursor) (queries : List Query) :
    c.answers queries = reader.answers c queries := by
  induction queries generalizing c with
  | nil => rfl
  | cons q queries ih =>
    show _ :: (c.ask q).2.answers queries = _
    rw [ih]
    rfl

/-! ## 2. An index in a row of characters -/

namespace LineBreak

/-- The place of character number `i` of the normalised text. It stands behind the part of `t`, as
that was given, from which the characters before it come. -/
def place (t : List Char) (i : Nat) : Position := following (splitAt i t).1

theorem place_eq_advance {t : List Char} {i : Nat} (h : i ≤ (normalize t).length) :
    place t i = Position.start.advance ((normalize t).take i) := by
  have hlength : ((normalize t).take i).length = i := List.length_take_of_le h
  have hsplit := normalize_splitAt (List.take_append_drop i (normalize t)).symm
  rw [hlength] at hsplit
  rw [place, following_eq_advance, hsplit.1]

theorem place_succ {t : List Char} {i : Nat} {ch : Char} (h : (normalize t)[i]? = some ch) :
    place t (i + 1) = (place t i).after ch := by
  have hi : i < (normalize t).length := (List.getElem?_eq_some_iff.mp h).1
  rw [place_eq_advance hi, place_eq_advance (Nat.le_of_lt hi), List.take_add_one, h,
    Position.advance_append]
  rfl

end LineBreak

/-- How far a row of characters has been read. -/
structure Indexed where
  /-- How many characters were read. -/
  index : Nat
  /-- The place of the character that was read last. -/
  last : Position

namespace Indexed

/-- The row in which the character at the index was read. -/
def onward (t : List Char) (s : Indexed) : Indexed :=
  ⟨s.index + 1, LineBreak.place t s.index⟩

/-- The character that a query to the row of the text `t` brings, and the index behind it. -/
def ask (t : List Char) (s : Indexed) : Query → Option Char × Indexed
  | .folded => (LineBreak.normalize t)[s.index]?.elim (none, s) fun ch =>
      (some (CharClass.foldControl ch), s.onward t)
  | .verbatim => (LineBreak.normalize t)[s.index]?.elim (none, s) fun ch => (some ch, s.onward t)
  | .ahead => ((LineBreak.normalize t)[s.index]?.map CharClass.foldControl, s)

def reader (t : List Char) : Reader Indexed := ⟨ask t, last⟩

/-- Nothing is read yet, and the place is that of the start. -/
def start : Indexed := ⟨0, ⟨1, 1⟩⟩

end Indexed

namespace Cursor

/-- The cursor stands in the text `t` where the index does. -/
structure At (t : List Char) (c : Cursor) (s : Indexed) : Prop where
  unread : c.unread = (LineBreak.normalize t).drop s.index
  next : c.next = LineBreak.place t s.index
  last : c.last = s.last

variable {t : List Char} {c : Cursor} {s : Indexed}

theorem at_ofText (text : String) : At text.toList (ofText text) .start := ⟨rfl, rfl, rfl⟩

theorem At.read?_of_none (h : At t c s) (hnone : (LineBreak.normalize t)[s.index]? = none) :
    c.read? = none := by
  apply read?_eq_none_of_unread
  rw [h.unread]
  exact List.drop_eq_nil_of_le (List.getElem?_eq_none_iff.mp hnone)

theorem At.read?_of_some (h : At t c s) {ch : Char}
    (hsome : (LineBreak.normalize t)[s.index]? = some ch) :
    ∃ d, c.read? = some (ch, d) ∧ At t d (s.onward t) := by
  obtain ⟨hindex, rfl⟩ := List.getElem?_eq_some_iff.mp hsome
  have hunread := h.unread
  rw [List.drop_eq_getElem_cons hindex] at hunread
  obtain ⟨d, hread, hd⟩ := exists_read?_of_unread hunread
  have hreads := reads_of_read? hread
  refine ⟨d, hread, hd, ?_, ?_⟩
  · rw [hreads.next, h.next]
    exact (LineBreak.place_succ hsome).symm
  · rw [hreads.last, if_neg (List.cons_ne_nil _ _), h.next]
    rfl

theorem simulates_indexed (t : List Char) : reader.Simulates (Indexed.reader t) (At t) where
  last h := h.last
  char {c s} q h := by
    show (c.ask q).1 = (s.ask t q).1
    cases hchar : (LineBreak.normalize t)[s.index]? with
    | none =>
      have hread := h.read?_of_none hchar
      cases q <;> simp [ask, readFolded?, peek?, Indexed.ask, hread, hchar]
    | some ch =>
      obtain ⟨d, hread, -⟩ := h.read?_of_some hchar
      cases q <;> simp [ask, readFolded?, peek?, Indexed.ask, hread, hchar]
  onward {c s} q h := by
    show At t (c.ask q).2 (s.ask t q).2
    cases hchar : (LineBreak.normalize t)[s.index]? with
    | none =>
      have hread := h.read?_of_none hchar
      cases q <;> simpa [ask, readFolded?, peek?, Indexed.ask, hread, hchar] using h
    | some ch =>
      obtain ⟨d, hread, hd⟩ := h.read?_of_some hchar
      cases q with
      | folded => simpa [ask, readFolded?, Indexed.ask, hread, hchar] using hd
      | verbatim => simpa [ask, Indexed.ask, hread, hchar] using hd
      | ahead => exact h

end Cursor

/-! ## 3. The cell -/

namespace Lookahead

/-- The state of the cursor `c`, with nothing in the cell. -/
def ofCursor (c : Cursor) : Lookahead := ⟨c.rest, none, c.next, c.last⟩

/-- What is left to read is the same for `s` and for `c`. A character in the cell is the one that
`c` would read, and behind it `s` is where that would leave `c`. -/
structure Holds (s : Lookahead) (c : Cursor) : Prop where
  last : s.last = c.last
  empty : s.cell = none → s = ofCursor c
  full : ∀ ch place, s.cell = some (ch, place) → c.read? = some (ch, ⟨s.rest, s.next, place⟩)

variable {s : Lookahead} {c : Cursor}

theorem holds_ofCursor (c : Cursor) : Holds (ofCursor c) c where
  last := rfl
  empty _ := rfl
  full ch place h := by cases h

-- Full or empty, the cell makes no difference for a read, which leaves it empty.
theorem Holds.read?_eq (h : Holds s c) :
    s.read? = c.read?.map fun (ch, d) => (ch, ofCursor d) := by
  cases hcell : s.cell with
  | none =>
    rw [h.empty hcell, Cursor.read?, Option.map_map]
    rfl
  | some p =>
    obtain ⟨ch, place⟩ := p
    rw [h.full ch place hcell, read?, hcell]
    rfl

theorem Holds.peek (h : Holds s c) {ch : Char} {d : Cursor} (hread : c.read? = some (ch, d)) :
    Holds { ofCursor d with cell := some (ch, (ofCursor d).last), last := s.last } c where
  last := h.last
  empty hcell := by cases hcell
  full ch' place hcell := by
    cases hcell
    exact hread

theorem simulates_cursor : reader.Simulates Cursor.reader Holds where
  last h := h.last
  char {s c} q h := by
    show (s.ask q).1 = (c.ask q).1
    have hsame := h.read?_eq
    cases hread : c.read? with
    | none =>
      rw [hread] at hsame
      cases q <;> simp [ask, readFolded?, peek?, Cursor.ask, Cursor.readFolded?, Cursor.peek?,
        hsame, hread]
    | some p =>
      rw [hread] at hsame
      cases q <;> simp [ask, readFolded?, peek?, Cursor.ask, Cursor.readFolded?, Cursor.peek?,
        hsame, hread]
  onward {s c} q h := by
    show Holds (s.ask q).2 (c.ask q).2
    have hsame := h.read?_eq
    cases hread : c.read? with
    | none =>
      rw [hread] at hsame
      cases q <;> simpa [ask, readFolded?, peek?, Cursor.ask, Cursor.readFolded?, Cursor.peek?,
        hsame, hread] using h
    | some p =>
      obtain ⟨ch, d⟩ := p
      rw [hread] at hsame
      cases q with
      | folded =>
        simpa [ask, readFolded?, Cursor.ask, Cursor.readFolded?, hsame, hread] using
          holds_ofCursor d
      | verbatim => simpa [ask, Cursor.ask, hsame, hread] using holds_ofCursor d
      | ahead => simpa [ask, peek?, Cursor.ask, hsame] using h.peek hread

end Lookahead

/-! ## 4. The answers -/

/-- To any row of reads and looks ahead, a cursor on a fresh text answers as the row of its
characters does, read by an index; and so does a cursor that keeps what it looked at in a cell. The
place they tell before the first read is that of the start. -/
theorem answers_eq_indexed (text : String) (queries : List Query) :
    (Cursor.ofText text).answers queries =
        (Indexed.reader text.toList).answers .start queries ∧
      Lookahead.reader.answers (.ofText text) queries =
        (Indexed.reader text.toList).answers .start queries ∧
      (Cursor.ofText text).last = ⟨1, 1⟩ ∧ (Lookahead.ofText text).last = ⟨1, 1⟩ := by
  have hcursor : Cursor.reader.answers (.ofText text) queries =
      (Indexed.reader text.toList).answers .start queries :=
    (Cursor.simulates_indexed text.toList).answers_eq (Cursor.at_ofText text) queries
  refine ⟨?_, ?_, rfl, rfl⟩
  · rw [Cursor.answers_eq_reader, hcursor]
  · rw [← hcursor]
    exact Lookahead.simulates_cursor.answers_eq (Lookahead.holds_ofCursor (.ofText text)) queries

-- The line break is looked at, and the blank behind it is read, verbatim or folded.
example : (Cursor.ofText "a\r\n\t\tb").answers
    [.folded, .ahead, .verbatim, .verbatim, .ahead, .folded, .folded, .ahead, .verbatim] =
      [⟨some 'a', ⟨1, 1⟩⟩, ⟨some '\n', ⟨1, 1⟩⟩, ⟨some '\n', ⟨1, 2⟩⟩, ⟨some '\t', ⟨2, 1⟩⟩,
        ⟨some ' ', ⟨2, 1⟩⟩, ⟨some ' ', ⟨2, 2⟩⟩, ⟨some 'b', ⟨2, 3⟩⟩, ⟨none, ⟨2, 3⟩⟩, ⟨none, ⟨2, 3⟩⟩] := by
  decide

end ScriptMinifier
