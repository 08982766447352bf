import ScriptMinifier.Proofs.Outcome
import ScriptMinifier.Proofs.Scanning
import ScriptMinifier.Run.Finish

/-!
What a run will end with can be told at every step from the reading of the text that is still
before it. This forecast does not change from one step to the next, so that a run ends as it was
forecast at its start.

The forecast needs an invariant of the window. A separator is only held as the current token if
the item that it follows keeps it, and a slash is only held as the upcoming token if it divides.
-/

namespace ScriptMinifier.Run

/-! ## 1. Forecasts -/

/-- The gap that the current token leaves, if it is a separator. -/
def gap (r : Run) : Gap :=
  if r.current = some ' ' then .space
  else if r.current = some '\n' then .newline
  else .none

/-- The output together with the current token, unless that is a separator, whose fate is open. -/
def settled (r : Run) : List Char :=
  r.output.toList ++ if r.gap = .none then r.current.toList else []

theorem settled_of_ne {r : Run} {ch : Char} (hcurrent : r.current = some ch) (hspace : ch ≠ ' ')
    (hnewline : ch ≠ '\n') : r.gap = .none ∧ r.settled = r.output.toList ++ [ch] := by
  have hgap : r.gap = .none := by simp [gap, hcurrent, hspace, hnewline]
  refine ⟨hgap, ?_⟩
  rw [settled, if_pos hgap, hcurrent]
  rfl

theorem settled_of_visible {r : Run} {ch : Char} (hcurrent : r.current = some ch)
    (hch : ' ' < ch) : r.gap = .none ∧ r.settled = r.output.toList ++ [ch] := by
  apply settled_of_ne hcurrent (Char.ne_of_lt hch).symm
  rintro rfl
  exact absurd hch (by decide)

theorem settled_of_none {r : Run} (hcurrent : r.current = none) :
    r.gap = .none ∧ r.settled = r.output.toList := by
  simp [settled, gap, hcurrent]

theorem settled_of_space {r : Run} (hcurrent : r.current = some ' ') :
    r.gap = .space ∧ r.settled = r.output.toList := by
  simp [settled, gap, hcurrent]

theorem settled_of_newline {r : Run} (hcurrent : r.current = some '\n') :
    r.gap = .newline ∧ r.settled = r.output.toList := by
  simp [settled, gap, hcurrent]

/-- Where the character behind `t` stands, if `t` begins with the character read last. -/
def placeFrom (c : Cursor) : List Char → Position
  | [] => c.last
  | _ :: t => c.next.advance t

/-- What `r` will end with if it fetches next: the text that it has not read yet follows the current
token. -/
def forecastBeforeFetch (r : Run) : Except Abort (List Char × Array Record) :=
  (Reading.read r.settled.getLast? r.cursor.unread).outcome r.settled r.gap r.log
    r.cursor.next.advance

/-- What `r` will end with if it makes a step next: the upcoming token, and then the text that it
has not read yet, follow the current token. -/
def forecastBeforeStep (r : Run) : Except Abort (List Char × Array Record) :=
  (Reading.read r.settled.getLast? (r.upcoming.toList ++ r.cursor.unread)).outcome r.settled r.gap
    r.log (placeFrom r.cursor)

/-! ## 2. The invariant of the window -/

/-- The current token has its place behind what is written. -/
structure Placed (r : Run) : Prop where
  space : r.current = some ' ' →
    ∃ l, r.output.toList.getLast? = some l ∧ CharClass.isWord l = true
  newline : r.current = some '\n' → r.output.toList = [] ∨
    ∃ l, r.output.toList.getLast? = some l ∧
      (CharClass.keepsBreakAfter l || CharClass.isWord l) = true
  none_left : r.current = none → r.cursor.unread = []

/-- The upcoming token is a separator, or the next character, which begins no comment. -/
structure Fetched (r : Run) : Prop where
  none_unread : r.upcoming = none → r.cursor.unread = []
  visible : ∀ ch, r.upcoming = some ch → ch = ' ' ∨ ch = '\n' ∨
    ' ' < ch ∧ ¬ Comment.Opens (ch :: r.cursor.unread)

/-- The run stands between two steps. A slash that is upcoming divides. -/
structure Poised (r : Run) : Prop extends Placed r, Fetched r where
  ends : r.current = none → r.upcoming = none
  divides : r.upcoming = some '/' → r.settled.getLast?.any CharClass.introducesRegex = false

theorem placed_of_ne {r : Run} {ch : Char} (hcurrent : r.current = some ch) (hspace : ch ≠ ' ')
    (hnewline : ch ≠ '\n') : Placed r where
  space h := absurd (Option.some.inj (hcurrent.symm.trans h)) hspace
  newline h := absurd (Option.some.inj (hcurrent.symm.trans h)) hnewline
  none_left h := by
    rw [hcurrent] at h
    cases h

theorem fetched_of_none {r : Run} (hupcoming : r.upcoming = none) (h : r.cursor.unread = []) :
    Fetched r where
  none_unread _ := h
  visible ch hch := by
    rw [hupcoming] at hch
    cases hch

theorem fetched_of_some {r : Run} {ch : Char} (hupcoming : r.upcoming = some ch)
    (h : ch = ' ' ∨ ch = '\n' ∨ ' ' < ch ∧ ¬ Comment.Opens (ch :: r.cursor.unread)) :
    Fetched r where
  none_unread hnone := by
    rw [hupcoming] at hnone
    cases hnone
  visible x hx := by
    obtain rfl : ch = x := Option.some.inj (hupcoming.symm.trans hx)
    exact h

end ScriptMinifier.Run
