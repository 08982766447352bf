import ScriptMinifier.Minify
import ScriptMinifier.Proofs.Forecast.Step

/-!
A run ends as it was forecast at its start, and so the report on a text can be told from the
reading of the text.
-/

namespace ScriptMinifier

/-! ## 1. Whole runs -/

namespace Run

theorem forecast_of_current_none {r : Run} (h : Poised r) (hcurrent : r.current = none) :
    r.forecastBeforeStep = .ok (r.output.toList, r.log) := by
  have hupcoming := h.ends hcurrent
  have hsettled : r.settled = r.output.toList := by simp [settled, gap, hcurrent]
  rw [forecastBeforeStep, hupcoming, h.none_unread hupcoming, hsettled]
  rw [Option.toList_none, List.nil_append, Reading.read_nil, Reading.outcome_nil]

theorem finish_forecast {r : Run} (h : Poised r) :
    r.forecastBeforeStep = r.finish >>= fun s => .ok (s.output.toList, s.log) := by
  fun_induction finish r with
  | case1 r hcurrent => exact forecast_of_current_none h hcurrent
  | case2 r current hcurrent abort hstep =>
    rw [step_forecast h hcurrent, hstep]
    rfl
  | case3 r current hcurrent s hstep ih =>
    rw [step_forecast h hcurrent, hstep]
    exact ih (step_poised h hcurrent hstep)

-- The newline that stands in front of every text has nothing written before it.
theorem placed_start (text : String) : Placed (start text) where
  space h := absurd (Option.some.inj h) (by decide)
  newline _ := .inl rfl
  none_left h := absurd h (Option.some_ne_none '\n')

theorem start_forecast (text : String) :
    (start text).forecastBeforeFetch =
      (Reading.ofText text).outcome [] .none #[] Position.start.advance :=
  Reading.outcome_of_nothing_written (Reading.ofText text)

end Run

/-! ## 2. Reports -/

/-- The report on a run over `text` that ended so. -/
def Report.ofOutcome (text : String) : Except Abort (List Char × Array Record) → Report
  | .ok (out, log) =>
    ⟨.ok (String.ofList out),
      log.push (.minified text.utf8ByteSize (String.ofList out).utf8ByteSize)⟩
  | .error abort => ⟨.error abort.fault, abort.log.push (.aborted abort.fault)⟩

theorem report_eq (text : String) :
    report text = Report.ofOutcome text
      ((Reading.ofText text).outcome [] .none #[] Position.start.advance) := by
  rw [← Run.start_forecast, Run.fetch_forecast, report]
  cases hfetch : (Run.start text).fetch with
  | error abort => rfl
  | ok r =>
    have hpoised := Run.fetch_poised (Run.placed_start text) hfetch
    have hfinish : (Except.ok r >>= Run.finish) = r.finish := rfl
    have hforecast : (Except.ok r >>= Run.forecastBeforeStep) = r.forecastBeforeStep := rfl
    rw [hfinish, hforecast, Run.finish_forecast hpoised]
    cases r.finish with
    | error abort => rfl
    | ok s =>
      show Report.mk (.ok s.output) _ = Report.mk (.ok (String.ofList s.output.toList)) _
      rw [String.ofList_toList]

/-- What is recorded of a text before the run ends. -/
def Reading.records (x : Reading) : Array Record := (x.openers.map Record.regexAfter).toArray

theorem Reading.append_openersBehind (x : Reading) :
    (#[] : Array Record) ++ (x.openersBehind none).map Record.regexAfter = x.records := by
  rw [openersBehind_none, records]
  apply Array.ext'
  simp

theorem report_of_closed {text : String} (h : (Reading.ofText text).leftOpen = none) :
    report text =
      ⟨.ok (Layout.compact (Reading.ofText text).lexemes),
        (Reading.ofText text).records.push (.minified text.utf8ByteSize
          (Layout.compact (Reading.ofText text).lexemes).utf8ByteSize)⟩ := by
  rw [report_eq, Reading.outcome, h, List.getLast?_nil, Reading.append_openersBehind]
  rfl

theorem report_of_leftOpen {text : String} {k : Construct} {t : List Char}
    (h : (Reading.ofText text).leftOpen = some (k, t)) :
    report text =
      let fault := ⟨k, Position.start.advance ((Reading.ofText text).lexemes.flatMap Lexeme.text)⟩
      ⟨.error fault, (Reading.ofText text).records.push (.aborted fault)⟩ := by
  rw [report_eq, Reading.outcome, h, List.getLast?_nil, Reading.append_openersBehind]
  rfl

theorem minify_eq_ok_iff {text out : String} :
    minify text = .ok out ↔ (Reading.ofText text).leftOpen = none ∧
      out = Layout.compact (Reading.ofText text).lexemes := by
  rw [minify]
  cases hopen : (Reading.ofText text).leftOpen with
  | none =>
    rw [report_of_closed hopen]
    exact ⟨fun h => ⟨rfl, (Except.ok.inj h).symm⟩, fun h => congrArg Except.ok h.2.symm⟩
  | some p =>
    rw [report_of_leftOpen hopen]
    constructor
    · intro h
      cases h
    · intro h
      cases h.1

end ScriptMinifier
