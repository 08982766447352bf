import ScriptMinifier.Proofs.Report
import ScriptMinifier.Run.Head

/-!
The states that a run passes through. The invariant of the window holds at each of them, what the
run will end with can be told from each of them, and a run that succeeds ends at one of them.
-/

namespace ScriptMinifier

namespace Run

variable {text : String} {n : Nat} {r s : Run}

theorem Head.poised (h : Head text n r) : Poised r := by
  induction h with
  | first fetched => exact fetch_poised (placed_start text) fetched
  | next _ pending stepped ih => exact step_poised ih pending stepped

theorem Head.forecast_eq (h : Head text n r) :
    (start text).forecastBeforeFetch = r.forecastBeforeStep := by
  induction h with
  | first fetched =>
    rw [fetch_forecast, fetched]
    rfl
  | next head pending stepped ih =>
    rw [ih, step_forecast head.poised pending, stepped]
    rfl

/-- A report can be told from every state that its run passes through. -/
theorem Head.report_eq (h : Head text n r) :
    report text = Report.ofOutcome text r.forecastBeforeStep := by
  rw [ScriptMinifier.report_eq, ← start_forecast, h.forecast_eq]

theorem exists_head_of_finish (h : Head text n r) (hfinish : r.finish = .ok s) :
    ∃ k, Head text k s ∧ s.current = none := by
  fun_induction finish r generalizing n with
  | case1 r hcurrent =>
    cases hfinish
    exact ⟨n, h, hcurrent⟩
  | case2 r current hcurrent abort hstep => cases hfinish
  | case3 r current hcurrent t hstep ih => exact ih (.next h hcurrent hstep) hfinish

/-- The state of the run over `text` after `n` steps, if it takes as many. -/
def after (text : String) : Nat → Option Run
  | 0 => (start text).fetch.toOption
  | n + 1 => (after text n).bind fun r => r.current.bind fun current => (r.step current).toOption

-- A run passes through one state at a time, which can be computed.
theorem head_of_after (h : after text n = some r) : Head text n r := by
  induction n generalizing r with
  | zero =>
    rw [after] at h
    cases hfetch : (start text).fetch with
    | error abort =>
      rw [hfetch] at h
      cases h
    | ok s =>
      rw [hfetch] at h
      cases h
      exact .first hfetch
  | succ n ih =>
    obtain ⟨s, hafter, h⟩ := Option.bind_eq_some_iff.mp h
    obtain ⟨current, hcurrent, h⟩ := Option.bind_eq_some_iff.mp h
    cases hstep : s.step current with
    | error abort =>
      rw [hstep] at h
      cases h
    | ok t =>
      rw [hstep] at h
      cases h
      exact .next (ih hafter) hcurrent hstep

theorem Head.after_eq (h : Head text n r) : after text n = some r := by
  induction h with
  | first fetched =>
    rw [after, fetched]
    rfl
  | next _ pending stepped ih =>
    rw [after, ih, Option.bind_some, pending, Option.bind_some, stepped]
    rfl

theorem exists_head_of_after {p : Run → Bool} (h : (after text n).any p = true) :
    ∃ r, Head text n r ∧ p r = true := by
  obtain ⟨r, hafter, hp⟩ := (Option.any_eq_true _ _).mp h
  exact ⟨r, head_of_after hafter, hp⟩

end Run

-- What a text is minified to is written at the last state of its run.
theorem exists_head_of_minify {text out : String} (h : minify text = .ok out) :
    ∃ n r, Run.Head text n r ∧ r.current = none ∧ r.output = out := by
  rw [minify, report] at h
  split at h
  · rename_i s hrun
    obtain ⟨r, hfetch, hfinish⟩ := Run.bind_eq_ok hrun
    obtain ⟨n, hhead, hcurrent⟩ := Run.exists_head_of_finish (.first hfetch) hfinish
    exact ⟨n, s, hhead, hcurrent, Except.ok.inj h⟩
  · cases h

end ScriptMinifier
