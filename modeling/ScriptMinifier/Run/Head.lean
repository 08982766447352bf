import ScriptMinifier.Run.Basic

/-! The states that a run passes through. -/

namespace ScriptMinifier.Run

/-- The run over `text` stands at `r` after `n` steps, with the next token fetched. -/
inductive Head (text : String) : Nat → Run → Prop where
  | first {r : Run} (fetched : (start text).fetch = .ok r) : Head text 0 r
  | next {n : Nat} {r s : Run} {current : Char} (head : Head text n r)
      (pending : r.current = some current) (stepped : r.step current = .ok s) :
      Head text (n + 1) s

/-- The run over `text` stands at `r` after `n` steps, and all of these dropped the upcoming token,
so that the current one is still the newline in front of the text. -/
inductive Leading (text : String) : Nat → Run → Prop where
  | first {r : Run} (fetched : (start text).fetch = .ok r) : Leading text 0 r
  | next {n : Nat} {r s : Run} (leading : Leading text n r)
      (dropped : Action.choose '\n' r.upcoming = .fetch) (stepped : r.step '\n' = .ok s) :
      Leading text (n + 1) s

end ScriptMinifier.Run
