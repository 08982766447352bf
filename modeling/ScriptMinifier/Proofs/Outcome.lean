import ScriptMinifier.Proofs.Layout
import ScriptMinifier.Proofs.LineBreak
import ScriptMinifier.Proofs.Reading
import ScriptMinifier.Run.Basic

/-!
What a reading comes to. A run that has written a text, with a gap open behind it, ends with an
outcome that the reading of the rest decides: the rest of the layout, or the fault at what is left
open, and the records in either case. The outcome can be computed part by part.
-/

namespace ScriptMinifier

/-! ## 1. The characters that introduce regular expressions -/

/-- A regular expression comes behind its opener. -/
def Item.opener (before : Option Char) : Item → List Char
  | .regex _ => before.toList
  | _ => []

namespace Reading

/-- The last character of the last item, if the reading stands behind an item ending in
`before`. -/
def lastBehind (before : Option Char) (x : Reading) : Option Char :=
  (x.items.getLast?.map Item.last).or before

theorem behind_of_item?_eq_none {x : Lexeme} (hx : x.item? = none) (before : Option Char) :
    behind before x = before := by
  cases x with
  | item => cases hx
  | _ => rfl

theorem lastBehind_prepend (before : Option Char) (x : Lexeme) (y : Reading) :
    (y.prepend x).lastBehind before = y.lastBehind (behind before x) := by
  cases x with
  | item i =>
    show ((i :: y.items).getLast?.map Item.last).or before = _
    rw [lastBehind, List.getLast?_cons]
    cases y.items.getLast? <;> rfl
  | blank => rfl
  | newline => rfl
  | lineComment => rfl
  | blockComment => rfl

/-- The characters that introduce the regular expressions of a reading that stands behind an item
ending in `before`. -/
def openersBehind (before : Option Char) (x : Reading) : List Char :=
  introducers before x.items ++
    match x.leftOpen with
    | some (.regex, _) => (x.lastBehind before).toList
    | _ => []

theorem openersBehind_none (x : Reading) : x.openersBehind none = x.openers := by
  have hlast : x.lastBehind none = x.items.getLast?.map Item.last := Option.or_none
  rw [openersBehind, hlast]
  rfl

theorem openersBehind_prepend {x : Lexeme} (hx : x.item? = none) (before : Option Char)
    (y : Reading) : (y.prepend x).openersBehind before = y.openersBehind before := by
  have hitems : (y.prepend x).items = y.items := List.filterMap_cons_none hx
  unfold openersBehind lastBehind
  rw [hitems]
  rfl

theorem openersBehind_prepend_item (before : Option Char) (i : Item) (y : Reading) :
    (y.prepend (.item i)).openersBehind before =
      i.opener before ++ y.openersBehind (some i.last) := by
  have hitems : (y.prepend (.item i)).items = i :: y.items := rfl
  unfold openersBehind
  rw [hitems, lastBehind_prepend, show (y.prepend (.item i)).leftOpen = y.leftOpen from rfl,
    ← List.append_assoc]
  congr 1
  cases i <;> rfl

end Reading

/-! ## 2. The outcome of a reading -/

/-- What a run ends with that has written `written`, with `gap` open behind it and `log` recorded,
if the rest of its text reads as `x`. Of that rest, `place` tells where the character behind a
part of it stands. -/
def Reading.outcome (x : Reading) (written : List Char) (gap : Gap) (log : Array Record)
    (place : List Char → Position) : Except Abort (List Char × Array Record) :=
  let log := log ++ (x.openersBehind written.getLast?).map Record.regexAfter
  match x.leftOpen with
  | none => .ok (written ++ Layout.write written.getLast? gap x.lexemes, log)
  | some (k, _) => .error ⟨⟨k, place (x.lexemes.flatMap Lexeme.text)⟩, log⟩

namespace Reading

variable (written : List Char) (gap : Gap) (log : Array Record) (place : List Char → Position)

theorem outcome_nil : outcome ⟨[], none⟩ written gap log place = .ok (written, log) := by
  simp [outcome, openersBehind, items, introducers, Layout.write]

-- What is left open at once is a fault at the first character.
theorem outcome_leftOpen (k : Construct) (t : List Char) :
    outcome ⟨[], some (k, t)⟩ written gap log place =
      .error ⟨⟨k, place []⟩, log ++
        ((if k = .regex then written.getLast?.toList else []).map Record.regexAfter)⟩ := by
  cases k <;> simp [outcome, openersBehind, lastBehind, items, introducers]

-- A separator widens the gap, and nothing else.
theorem outcome_prepend {x : Lexeme} (hx : x.item? = none) (y : Reading) :
    (y.prepend x).outcome written gap log place =
      y.outcome written (gap.join x.gap) log (fun t => place (x.text ++ t)) := by
  unfold outcome
  rw [openersBehind_prepend hx]
  simp only [prepend, List.flatMap_cons, Layout.write_of_item?_eq_none hx]

theorem outcome_separator {x : Lexeme} {t : List Char} (hx : x.item? = none)
    (before : Option Char) (hstands : x.Stands before t) :
    (read before (x.text ++ t)).outcome written gap log place =
      (read before t).outcome written (gap.join x.gap) log (fun u => place (x.text ++ u)) := by
  rw [read_of_stands hstands, behind_of_item?_eq_none hx, outcome_prepend _ _ _ _ hx]

theorem outcome_space (before : Option Char) (t : List Char) :
    (read before (' ' :: t)).outcome written gap log place =
      (read before t).outcome written (gap.join .space) log (fun u => place (' ' :: u)) :=
  outcome_separator (x := .blank ' ') written gap log place rfl before ⟨by decide, by decide⟩

theorem outcome_newline (before : Option Char) (t : List Char) :
    (read before ('\n' :: t)).outcome written gap log place =
      (read before t).outcome written (gap.join .newline) log (fun u => place ('\n' :: u)) :=
  outcome_separator (x := .newline) written gap log place rfl before trivial

-- An item is written behind what is kept of the gap.
theorem outcome_prepend_item (i : Item) (y : Reading) :
    (y.prepend (.item i)).outcome written gap log place =
      y.outcome
        (written ++ (written.getLast?.elim [] (Layout.separator · i.first gap) ++ i.text)) .none
        (log ++ (i.opener written.getLast?).map Record.regexAfter)
        (fun t => place (i.text ++ t)) := by
  have hlast : (written ++
      (written.getLast?.elim [] (Layout.separator · i.first gap) ++ i.text)).getLast? =
        some i.last := by
    rw [← List.append_assoc, Item.getLast?_append_text]
  have hlog (a b : List Record) : log ++ (a ++ b) = log ++ a ++ b := Array.ext' (by simp)
  unfold outcome
  rw [openersBehind_prepend_item, hlast, List.map_append, hlog]
  simp only [prepend, List.flatMap_cons, Lexeme.text, Layout.write_item, List.append_assoc]

theorem outcome_prepend_item_of_none (i : Item) (y : Reading) :
    (y.prepend (.item i)).outcome written .none log place =
      y.outcome (written ++ i.text) .none (log ++ (i.opener written.getLast?).map Record.regexAfter)
        (fun t => place (i.text ++ t)) := by
  rw [outcome_prepend_item, Layout.elim_separator_none, List.nil_append]

/-! ## 3. What does not matter for an outcome -/

variable {written : List Char} {gap : Gap} {log : Array Record} {place : List Char → Position}

-- Only places in the text that is read matter.
theorem outcome_read_congr {before : Option Char} {ch : Char} {t : List Char}
    {place' : List Char → Position} (hnil : place [] = place' [])
    (hcons : ∀ u, place (ch :: u) = place' (ch :: u)) :
    (read before (ch :: t)).outcome written gap log place =
      (read before (ch :: t)).outcome written gap log place' := by
  have htext := flatMap_text_read before (ch :: t)
  have hplace : place ((read before (ch :: t)).lexemes.flatMap Lexeme.text) =
      place' ((read before (ch :: t)).lexemes.flatMap Lexeme.text) := by
    cases hlexemes : (read before (ch :: t)).lexemes.flatMap Lexeme.text with
    | nil => exact hnil
    | cons a u =>
      rw [hlexemes] at htext
      obtain ⟨rfl, -⟩ := List.cons.inj htext
      exact hcons u
  unfold outcome
  rw [hplace]

-- At the beginning of the output no gap is written.
theorem outcome_of_nothing_written (x : Reading) :
    x.outcome [] gap log place = x.outcome [] .none log place := by
  unfold outcome
  rw [List.getLast?_nil, Layout.write_none gap .none]

-- A gap that the last item does not keep is not written.
theorem outcome_of_dropped {l : Char} (hlast : written.getLast? = some l)
    (hword : CharClass.isWord l = false)
    (hkeeps : gap = .newline → CharClass.keepsBreakAfter l = false) (x : Reading) :
    x.outcome written gap log place = x.outcome written .none log place := by
  unfold outcome
  rw [hlast, Layout.write_of_dropped hword hkeeps]

-- A gap that the next item does not keep is not written.
theorem outcome_read_of_dropped {before : Option Char} {ch : Char} {t : List Char}
    (hch : ' ' < ch) (hopens : ¬ Comment.Opens (ch :: t))
    (hdropped : ∀ l, Layout.separator l ch gap = []) :
    (read before (ch :: t)).outcome written gap log place =
      (read before (ch :: t)).outcome written .none log place := by
  rcases @first?_of_visible before ch t hch hopens with ⟨k, hk⟩ | ⟨i, rest, hi, hfirst⟩
  · rw [read_of_first?_error hk, outcome_leftOpen, outcome_leftOpen]
  · rw [read_of_first? hi, outcome_prepend_item, outcome_prepend_item, hfirst]
    cases written.getLast? with
    | none => rfl
    | some l =>
      rw [Option.elim_some, Option.elim_some, hdropped l]
      rfl

-- What is kept of a gap in front of a mark is written before the mark is read.
theorem outcome_read_of_kept {ch : Char} {t : List Char} (hch : ' ' < ch)
    (hquote : CharClass.isQuote ch = false) (hslash : ch ≠ '/') (before before' : Option Char) :
    (read before (ch :: t)).outcome written gap log place =
      (read before' (ch :: t)).outcome
        (written ++ written.getLast?.elim [] (Layout.separator · ch gap)) .none log place := by
  rw [read_mark hch hquote hslash, read_mark hch hquote hslash]
  rw [outcome_prepend_item, outcome_prepend_item_of_none, ← List.append_assoc]
  rfl

end Reading

end ScriptMinifier
