/-!
Loops. A round of a loop leads to the next round, or it leaves the loop with a result. With every
round that leads to another there is less left for the loop to use up, so that it is left at last,
whatever state it began in.
-/

namespace ScriptMinifier

/-- What a round comes to. -/
inductive Round (σ α : Type) where
  /-- The next round begins in the state `s`. -/
  | again (s : σ)
  /-- The loop is left with the result `a`. -/
  | done (a : α)

structure Loop (σ α : Type) where
  round : σ → Round σ α
  /-- How much there is for the rounds to use up. -/
  left : σ → Nat
  left_lt : ∀ {s t}, round s = .again t → left t < left s

namespace Loop

variable {σ α : Type}

/-- Goes round until the loop is left. -/
def run (l : Loop σ α) (s : σ) : α :=
  match _h : l.round s with
  | .again t => l.run t
  | .done a => a
termination_by l.left s
decreasing_by exact l.left_lt _h

theorem run_of_again {l : Loop σ α} {s t : σ} (h : l.round s = .again t) :
    l.run s = l.run t := by
  rw [run]
  split
  · rename_i heq
    rw [h] at heq
    cases heq
    rfl
  · rename_i heq
    rw [h] at heq
    cases heq

theorem run_of_done {l : Loop σ α} {s : σ} {a : α} (h : l.round s = .done a) : l.run s = a := by
  rw [run]
  split
  · rename_i heq
    rw [h] at heq
    cases heq
  · rename_i heq
    rw [h] at heq
    cases heq
    rfl

/-- The loop that begins in the state `s` is left in its round number `n`, with the result `a`. -/
inductive Ends (l : Loop σ α) : σ → Nat → α → Prop where
  | done {s : σ} {a : α} (round : l.round s = .done a) : Ends l s 1 a
  | again {s t : σ} {n : Nat} {a : α} (round : l.round s = .again t) (rest : Ends l t n a) :
      Ends l s (n + 1) a

/-- A loop has at most one round more than it can use up. -/
theorem exists_ends (l : Loop σ α) (s : σ) : ∃ n ≤ l.left s + 1, l.Ends s n (l.run s) := by
  fun_induction run l s with
  | case1 s t h ih =>
    obtain ⟨n, hle, hends⟩ := ih
    have hlt := l.left_lt h
    exact ⟨n + 1, by omega, .again h hends⟩
  | case2 s a h => exact ⟨1, by omega, .done h⟩

end Loop

end ScriptMinifier
