import ScriptMinifier.Proofs.Retracing

/-!
The body of a string is opaque. Nothing that stands between the quotes has a say in how the text
before it, or the text behind it, is read and written.
-/

namespace ScriptMinifier

/-- A string literal between two texts. -/
def around (p r : String) (quote : Char) (body : List Char) : String :=
  p ++ String.ofList (Item.string quote body).text ++ r

theorem toList_around (p r : String) (quote : Char) (body : List Char) :
    (around p r quote body).toList = p.toList ++ quote :: (body ++ quote :: r.toList) := by
  simp [around, Item.text]

/-- The run over `text` reads the quote behind `p` as a token that opens a string literal: it is
upcoming, and what is behind it is left to read. -/
def Run.OpensString (text : String) (p : List Char) (quote : Char) : Prop :=
  ∃ n s, Head text n s ∧ s.upcoming = some quote ∧ text.toList = p ++ quote :: s.cursor.rest

/-- Two bodies behind the same quote. -/
def Fork.ofBodies {quote : Char} (hquote : CharClass.isQuote quote = true)
    (body body' : List Char) (r : String) : Fork where
  quote := quote
  left := body ++ quote :: r.toList
  right := body' ++ quote :: r.toList
  is_quote := hquote
  left_ne_nil := List.append_ne_nil_of_right_ne_nil _ (List.cons_ne_nil _ _)

namespace Run

variable {quote : Char} {body : List Char} {n : Nat} {s : Run}

/-! ## 1. Up to the body -/

/-- The run over a text with another body comes to the same state in front of it. -/
theorem exists_head_around {p r : String} (hquote : CharClass.isQuote quote = true)
    (h : Head (around p r quote body) n s) (hrest : s.cursor.rest = body ++ quote :: r.toList)
    (body' : List Char) :
    ∃ d, Head (around p r quote body') n (s.reading d) ∧ d.rest = body' ++ quote :: r.toList := by
  have hstart : (Cursor.ofText (around p r quote body)).Abreast (.ofBodies hquote body body' r)
      (Cursor.ofText (around p r quote body')) := by
    have hsplit (b : List Char) : (around p r quote b).toList =
        (p.toList ++ [quote]) ++ (b ++ quote :: r.toList) := by
      rw [toList_around, List.append_assoc]
      rfl
    exact ⟨_, .inr List.getLast?_concat, hsplit body, hsplit body'⟩
  obtain ⟨d, hhead, habreast⟩ := h.retrace hstart (Nat.le_of_eq (congrArg List.length hrest.symm))
  exact ⟨d, hhead, habreast.rest_eq hrest⟩

/-! ## 2. From the body on -/

/-- What comes to stand in front of a string literal that is upcoming. -/
def inFront (s : Run) (quote : Char) : List Char :=
  s.settled ++ s.settled.getLast?.elim [] (Layout.separator · quote s.gap)

/-- The reading of the text `r` behind a string literal. -/
def behindString (quote : Char) (r : String) : Reading :=
  Reading.read (some quote) (LineBreak.normalize r.toList)

/-- With a string literal upcoming, the body is only written. What the run will end with depends on
the state in front of it and on the text behind it. -/
theorem forecast_of_string {r : String} (hquote : CharClass.isQuote quote = true)
    (hupcoming : s.upcoming = some quote) (hbody : Literal.Body quote body) (hreturn : '\r' ∉ body)
    (hrest : s.cursor.rest = body ++ quote :: r.toList) :
    s.forecastBeforeStep = (behindString quote r).outcome
      (s.inFront quote ++ (Item.string quote body).text) .none s.log
        fun t => placeFrom s.cursor ((Item.string quote body).text ++ t) := by
  obtain ⟨-, hescape, hnewline, -⟩ := CharClass.ne_of_isQuote hquote
  have hne : quote ≠ '\r' := by
    rcases CharClass.isQuote_iff.mp hquote with rfl | rfl <;> decide
  have hunread : s.cursor.unread = body ++ quote :: LineBreak.normalize r.toList := by
    rw [Cursor.unread, hrest, LineBreak.normalize_append (.inr (by simpa using hnewline)),
      LineBreak.normalize_eq_self hreturn, LineBreak.normalize_cons_of_ne hne]
  have hfirst (before : Option Char) := @Reading.first?_string before quote _ _ _ hquote
    (Literal.split?_of_body hescape hbody (LineBreak.normalize r.toList))
  rw [forecastBeforeStep, hupcoming, hunread, Option.toList_some, List.singleton_append,
    Reading.read_of_first? (hfirst _), Reading.outcome_prepend_item, ← List.append_assoc]
  have hlog : s.log ++ ([] : List Record) = s.log := by simp
  show Reading.outcome _ _ _ (s.log ++ []) _ = _
  rw [hlog]
  rfl

end Run

-- A run that has come to a string literal succeeds if the text behind the literal lets it.
theorem minify_eq_ok_iff_of_string {text : String} {n : Nat} {s : Run} {quote : Char}
    {body : List Char} {r out : String} (hhead : Run.Head text n s)
    (hquote : CharClass.isQuote quote = true) (hupcoming : s.upcoming = some quote)
    (hbody : Literal.Body quote body) (hreturn : '\r' ∉ body)
    (hrest : s.cursor.rest = body ++ quote :: r.toList) :
    minify text = .ok out ↔ (Run.behindString quote r).leftOpen = none ∧
      out = around (String.ofList (s.inFront quote))
        (String.ofList (Layout.write (some quote) .none (Run.behindString quote r).lexemes))
        quote body := by
  have hlast : (s.inFront quote ++ (Item.string quote body).text).getLast? = some quote :=
    Item.getLast?_append_text _ _
  rw [minify, hhead.report_eq, Run.forecast_of_string hquote hupcoming hbody hreturn hrest,
    Reading.outcome, hlast, around, ← String.ofList_append, ← String.ofList_append]
  cases (Run.behindString quote r).leftOpen with
  | none => exact ⟨fun h => ⟨rfl, (Except.ok.inj h).symm⟩, fun h => congrArg Except.ok h.2.symm⟩
  | some x =>
    constructor
    · intro h
      cases h
    · intro h
      cases h.1

/-- The body of a string literal decides nothing. If a run comes to the literal, so does the run
over the text with another body; either both succeed or both fail; and the two results differ in
the body only. -/
theorem minify_around {p r : String} {quote : Char} {body body' : List Char}
    (hquote : CharClass.isQuote quote = true) (hbody : Literal.Body quote body)
    (hreturn : '\r' ∉ body) (hbody' : Literal.Body quote body') (hreturn' : '\r' ∉ body')
    (h : Run.OpensString (around p r quote body) p.toList quote) :
    Run.OpensString (around p r quote body') p.toList quote ∧
      ((∃ out, minify (around p r quote body) = .ok out) ↔
        ∃ out, minify (around p r quote body') = .ok out) ∧
      ((∃ out, minify (around p r quote body) = .ok out) →
        ∃ x y, minify (around p r quote body) = .ok (around x y quote body) ∧
          minify (around p r quote body') = .ok (around x y quote body')) := by
  obtain ⟨n, s, hhead, hupcoming, htext⟩ := h
  have hrest : s.cursor.rest = body ++ quote :: r.toList := by
    rw [toList_around] at htext
    exact (List.cons.inj (List.append_cancel_left htext)).2.symm
  obtain ⟨d, hhead', hrest'⟩ := Run.exists_head_around hquote hhead hrest body'
  have hok (out : String) := @minify_eq_ok_iff_of_string _ n s quote body r out hhead hquote
    hupcoming hbody hreturn hrest
  have hok' (out : String) := @minify_eq_ok_iff_of_string _ n (s.reading d) quote body' r out
    hhead' hquote hupcoming hbody' hreturn' hrest'
  refine ⟨⟨n, s.reading d, hhead', hupcoming, ?_⟩, ?_, ?_⟩
  · rw [toList_around, ← hrest']
    rfl
  · constructor
    · rintro ⟨out, hout⟩
      exact ⟨_, (hok' _).mpr ⟨((hok out).mp hout).1, rfl⟩⟩
    · rintro ⟨out, hout⟩
      exact ⟨_, (hok _).mpr ⟨((hok' out).mp hout).1, rfl⟩⟩
  · rintro ⟨out, hout⟩
    have hclosed := ((hok out).mp hout).1
    exact ⟨_, _, (hok _).mpr ⟨hclosed, rfl⟩, (hok' _).mpr ⟨hclosed, rfl⟩⟩

theorem minify_around_comment :
    Run.OpensString (around "a = /\"/ +\n" " / b" '"' ['/', '*']) "a = /\"/ +\n".toList '"' ∧
      Run.OpensString (around "a = /\"/ +\n" " / b" '"' ['\\', '\n', '\''])
        "a = /\"/ +\n".toList '"' ∧
      minify (around "a = /\"/ +\n" " / b" '"' ['/', '*']) =
        .ok (around "a=/\"/+" "/b" '"' ['/', '*']) ∧
      ∃ x y,
        minify (around "a = /\"/ +\n" " / b" '"' ['/', '*']) = .ok (around x y '"' ['/', '*']) ∧
        minify (around "a = /\"/ +\n" " / b" '"' ['\\', '\n', '\'']) =
          .ok (around x y '"' ['\\', '\n', '\'']) := by
  have hopens : Run.OpensString (around "a = /\"/ +\n" " / b" '"' ['/', '*'])
      "a = /\"/ +\n".toList '"' := by
    obtain ⟨s, hhead, hs⟩ := @Run.exists_head_of_after
      (around "a = /\"/ +\n" " / b" '"' ['/', '*']) 7
      (fun s => s.upcoming = some '"' ∧ s.cursor.rest = ['/', '*', '"', ' ', '/', ' ', 'b'])
      (by decide +kernel)
    obtain ⟨hupcoming, hrest⟩ := of_decide_eq_true hs
    refine ⟨7, s, hhead, hupcoming, ?_⟩
    rw [hrest]
    decide +kernel
  have hminify : minify (around "a = /\"/ +\n" " / b" '"' ['/', '*']) =
      .ok (around "a=/\"/+" "/b" '"' ['/', '*']) := by
    rw [minify_eq_ok_iff]
    decide +kernel
  have hplain : Literal.Body '"' ['/', '*'] :=
    .plain (by decide) (by decide) (by decide) (.plain (by decide) (by decide) (by decide) .nil)
  have hescaped : Literal.Body '"' ['\\', '\n', '\''] :=
    .escape '\n' (.plain (by decide) (by decide) (by decide) .nil)
  obtain ⟨hopens', -, hsame⟩ :=
    minify_around (by decide) hplain (by decide) hescaped (by decide) hopens
  exact ⟨hopens, hopens', hminify, hsame ⟨_, hminify⟩⟩

end ScriptMinifier
