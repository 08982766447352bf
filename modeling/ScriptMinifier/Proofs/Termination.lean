import ScriptMinifier.Proofs.Head
import ScriptMinifier.Proofs.Scanner.Lookahead

/-!
Every run ends. A step uses up a token of the window or a character of the text, of which there is
one more than the text has characters when the first step begins. Whatever a step has the scanner
read, this loops no longer than there are characters before it.
-/

namespace ScriptMinifier

/-! ## 1. Steps of a run -/

namespace Run

variable {text : String} {n : Nat} {r : Run}

theorem Head.ahead_le (h : Head text n r) : n + r.ahead ≤ text.length + 1 := by
  induction h with
  | first fetched =>
    have hle := fetch_ahead fetched
    change _ ≤ 1 + text.toList.length at hle
    rw [String.length_toList] at hle
    omega
  | next _ pending stepped ih =>
    have hlt := step_ahead pending stepped
    omega

/-- The loop of the run over `text` is left in its iteration number `n`, or after it, with this
outcome. -/
inductive Ends (text : String) : Nat → Except Abort Run → Prop where
  /-- The loop is not entered: the first token cannot be fetched. -/
  | unfetched {abort : Abort} (failed : (start text).fetch = .error abort) :
      Ends text 0 (.error abort)
  /-- There is no current token any more. -/
  | used {n : Nat} {r : Run} (head : Head text n r) (current : r.current = none) :
      Ends text n (.ok r)
  | failed {n : Nat} {r : Run} {current : Char} {abort : Abort} (head : Head text n r)
      (pending : r.current = some current) (stepped : r.step current = .error abort) :
      Ends text (n + 1) (.error abort)

theorem Head.exists_ends (h : Head text n r) : ∃ k, Ends text k r.finish := by
  fun_induction finish r generalizing n with
  | case1 r hcurrent => exact ⟨n, .used h hcurrent⟩
  | case2 r current hcurrent abort hstep => exact ⟨n + 1, .failed h hcurrent hstep⟩
  | case3 r current hcurrent t hstep ih => exact ih (.next h hcurrent hstep)

theorem exists_ends (text : String) : ∃ n, Ends text n ((start text).fetch >>= finish) := by
  cases hfetch : (start text).fetch with
  | error abort => exact ⟨0, .unfetched hfetch⟩
  | ok r => exact Head.exists_ends (.first hfetch)

theorem Ends.le {outcome : Except Abort Run} (h : Ends text n outcome) : n ≤ text.length + 1 := by
  cases h with
  | unfetched => exact Nat.zero_le _
  | used head =>
    have hle := head.ahead_le
    omega
  | @failed n r _ _ head pending =>
    have hle := head.ahead_le
    have hone : 1 ≤ r.ahead := by
      rw [ahead, pending, Option.toList_some, List.length_singleton]
      omega
    omega

end Run

/-! ## 2. Loops of the scanner -/

namespace Lookahead

variable {σ α : Type} {s : Lookahead} {c : Cursor}

/-- From the state `s` on, with the text of `c` to be read, the loop is left in time. Its result and
the state behind it are those of `result`. -/
def LeftWith (l : Loop σ (α × Lookahead)) (s : σ) (c : Cursor) (result : α × Cursor) : Prop :=
  ∃ n ≤ c.unread.length + 1, ∃ t, l.Ends s n (result.1, t) ∧ Holds t result.2

theorem leftWith_of_run {l : Loop σ (α × Lookahead)} {s : σ} {result : α × Cursor}
    (hleft : l.left s = c.unread.length) (h : ∃ t, l.run s = (result.1, t) ∧ Holds t result.2) :
    LeftWith l s c result := by
  obtain ⟨t, hrun, ht⟩ := h
  obtain ⟨n, hle, hends⟩ := l.exists_ends s
  rw [hrun] at hends
  exact ⟨n, hleft ▸ hle, t, hends, ht⟩

end Lookahead

/-- On a text of `n` characters, the loop of a run is left after at most `n + 1` iterations, because
no token is current any more or because of a fault; and no step makes the scanner loop forever, for
every loop of it is left wherever it may begin, whether what it reads comes to its end or not. -/
theorem run_ends (text : String) :
    (∃ n ≤ text.length + 1, Run.Ends text n ((Run.start text).fetch >>= Run.finish)) ∧
      (∀ n outcome, Run.Ends text n outcome → n ≤ text.length + 1) ∧
      ∀ s c, Lookahead.Holds s c →
        Lookahead.LeftWith Lookahead.lineLoop s c c.skipLine ∧
        Lookahead.LeftWith Lookahead.blockLoop s c c.skipBlock ∧
        ∀ close out,
          Lookahead.LeftWith (Lookahead.copyLoop close) (s, out) c (c.copyBody close out) := by
  refine ⟨?_, fun n outcome => Run.Ends.le, ?_⟩
  · obtain ⟨n, hends⟩ := Run.exists_ends text
    exact ⟨n, hends.le, hends⟩
  · intro s c hholds
    have hleft := congrArg List.length hholds.unread_eq
    refine ⟨?_, ?_, fun close out => ?_⟩
    · exact Lookahead.leftWith_of_run hleft hholds.lineLoop
    · exact Lookahead.leftWith_of_run hleft hholds.blockLoop
    · exact Lookahead.leftWith_of_run hleft (hholds.copyLoop close out)

-- The comment is left open. Its loop ends with the text, and with it the run.
theorem run_ends_leftOpen :
    (∃ n ≤ 5, ∃ abort, Run.Ends "a/*b" n (.error abort) ∧ abort.fault = ⟨.comment, ⟨1, 2⟩⟩) ∧
      Lookahead.Holds (.ofText "b") (.ofText "b") ∧
        ∃ n ≤ 2, ∃ t, Lookahead.blockLoop.Ends (.ofText "b") n (false, t) := by
  constructor
  · obtain ⟨n, hle, hends⟩ := (run_ends "a/*b").1
    have hfault : minify "a/*b" = .error ⟨.comment, ⟨1, 2⟩⟩ := by decide +kernel
    rw [minify, report] at hfault
    cases houtcome : (Run.start "a/*b").fetch >>= Run.finish with
    | ok r =>
      rw [houtcome] at hfault
      cases hfault
    | error abort =>
      rw [houtcome] at hfault hends
      exact ⟨n, hle, abort, hends, Except.error.inj hfault⟩
  · have hholds : Lookahead.Holds (.ofText "b") (.ofText "b") :=
      Lookahead.holds_ofCursor (.ofText "b")
    have hopen : (Cursor.ofText "b").skipBlock.1 = false := by decide +kernel
    obtain ⟨n, hle, t, hends, -⟩ := ((run_ends "a/*b").2.2 _ _ hholds).2.1
    rw [hopen] at hends
    exact ⟨hholds, n, hle, t, hends⟩

-- The bound is reached: a newline and two letters are current in turn.
example : (Run.after "ab" 3).any (·.current = none) = true := by
  decide +kernel

end ScriptMinifier
