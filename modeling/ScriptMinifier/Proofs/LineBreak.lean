import Mathlib.Data.List.Induction
import ScriptMinifier.LineBreak

/-!
Normalised texts. A text with no carriage return is its own normal form, a split of the normal
form comes from a split of the text, and the place behind a text only depends on its normal form.
-/

namespace ScriptMinifier

namespace Position

/-- The place behind a normalised text that begins at `p`. -/
def advance (p : Position) (t : List Char) : Position := t.foldl after p

@[simp] theorem advance_nil (p : Position) : p.advance [] = p := rfl

@[simp] theorem advance_cons (p : Position) (c : Char) (t : List Char) :
    p.advance (c :: t) = (p.after c).advance t := rfl

@[simp] theorem advance_append (p : Position) (s t : List Char) :
    p.advance (s ++ t) = (p.advance s).advance t := by
  rw [advance, List.foldl_append]
  rfl

end Position

namespace LineBreak

/-! ## 1. Normal forms -/

theorem normalize_cons_of_ne {c : Char} (h : c ≠ '\r') (t : List Char) :
    normalize (c :: t) = c :: normalize t := by
  rw [normalize]
  · intro u hc
    exact absurd hc h
  · exact h

theorem normalize_return_of_head? {t : List Char} (h : t.head? ≠ some '\n') :
    normalize ('\r' :: t) = '\n' :: normalize t := by
  rw [normalize]
  intro u ht
  exact h (by rw [ht]; rfl)

theorem return_notMem_normalize (t : List Char) : '\r' ∉ normalize t := by
  fun_induction normalize t with
  | case1 => simp
  | case2 t ih => simpa using ih
  | case3 t _ ih => simpa using ih
  | case4 c t _ hc ih => simpa using ⟨fun h => hc h.symm, ih⟩

theorem normalize_eq_self {t : List Char} (h : '\r' ∉ t) : normalize t = t := by
  induction t with
  | nil => rfl
  | cons c t ih =>
    have hc : c ≠ '\r' := fun hc => h (by rw [hc]; exact List.mem_cons_self)
    rw [normalize_cons_of_ne hc, ih (fun ht => h (List.mem_cons_of_mem c ht))]

theorem head?_ne_newline {t : List Char} (h : ∀ u, t = '\n' :: u → False) :
    t.head? ≠ some '\n' := by
  intro ht
  obtain ⟨u, rfl⟩ := List.head?_eq_some_iff.mp ht
  exact h u rfl

-- Two texts are normalised apart, unless a carriage return and a newline meet between them.
theorem normalize_append {s t : List Char}
    (h : s.getLast? ≠ some '\r' ∨ t.head? ≠ some '\n') :
    normalize (s ++ t) = normalize s ++ normalize t := by
  fun_induction normalize s with
  | case1 => rfl
  | case2 s ih =>
    cases s with
    | nil => rfl
    | cons a s => exact congrArg ('\n' :: ·) (ih (by simpa using h))
  | case3 s hnext ih =>
    have hhead := head?_ne_newline hnext
    cases s with
    | nil => exact normalize_return_of_head? (h.resolve_left (by simp))
    | cons a s =>
      rw [List.cons_append, normalize_return_of_head? (by simpa using hhead), ih (by simpa using h)]
      rfl
  | case4 c s _ hc ih =>
    cases s with
    | nil => exact normalize_cons_of_ne hc t
    | cons a s =>
      rw [List.cons_append, normalize_cons_of_ne hc, ih (by simpa using h)]
      rfl

theorem normalize_concat_return (s : List Char) : normalize (s ++ ['\r']) = normalize s ++ ['\n'] :=
  normalize_append (.inr (by simp))

-- A carriage return takes the newline behind it along.
theorem normalize_append_newline {s : List Char} (h : s.getLast? = some '\r') (t : List Char) :
    normalize (s ++ '\n' :: t) = normalize s ++ normalize t := by
  obtain ⟨u, rfl⟩ := List.getLast?_eq_some_iff.mp h
  have hpair : normalize (u ++ '\r' :: '\n' :: t) = normalize u ++ '\n' :: normalize t :=
    normalize_append (.inr (by simp))
  rw [normalize_concat_return, List.append_assoc, List.append_assoc]
  exact hpair

theorem getLast?_normalize_of_return {s : List Char} (h : s.getLast? = some '\r') :
    (normalize s).getLast? = some '\n' := by
  obtain ⟨u, rfl⟩ := List.getLast?_eq_some_iff.mp h
  rw [normalize_concat_return, List.getLast?_concat]

theorem head?_normalize (t : List Char) :
    (normalize t).head? = t.head?.map fun c => if c = '\r' then '\n' else c := by
  fun_induction normalize t with
  | case1 => rfl
  | case2 => rfl
  | case3 => rfl
  | case4 c t _ hc => exact congrArg some (if_neg hc).symm

-- What a text begins with does not depend on what is put behind it.
theorem head?_normalize_append {s u : List Char} (h : normalize s = u) (hne : u ≠ [])
    (t : List Char) : (normalize (s ++ t)).head? = u.head? := by
  cases s with
  | nil => exact absurd h.symm hne
  | cons c s =>
    rw [← h, head?_normalize, head?_normalize]
    rfl

/-- Splits a text behind its first `n` characters, a line break of any style being one. -/
def splitAt : Nat → List Char → List Char × List Char
  | 0, t => ([], t)
  | _ + 1, [] => ([], [])
  | n + 1, '\r' :: '\n' :: t => ('\r' :: '\n' :: (splitAt n t).1, (splitAt n t).2)
  | n + 1, c :: t => (c :: (splitAt n t).1, (splitAt n t).2)

theorem splitAt_append (n : Nat) (t : List Char) : (splitAt n t).1 ++ (splitAt n t).2 = t := by
  fun_induction splitAt n t <;> simp_all

-- The parts of a split text are the parts of its normal form.
theorem normalize_splitAt {t u v : List Char} (h : normalize t = u ++ v) :
    normalize (splitAt u.length t).1 = u ∧ normalize (splitAt u.length t).2 = v := by
  induction u generalizing t with
  | nil => exact ⟨rfl, h⟩
  | cons c u ih =>
    fun_cases normalize t with
    | case1 => cases h
    | case2 t =>
      obtain ⟨rfl, ht⟩ := List.cons.inj h
      obtain ⟨hfst, hsnd⟩ := ih ht
      exact ⟨congrArg ('\n' :: ·) hfst, hsnd⟩
    | case3 t hnext =>
      have hhead := head?_ne_newline hnext
      rw [normalize_return_of_head? hhead] at h
      obtain ⟨rfl, ht⟩ := List.cons.inj h
      obtain ⟨hfst, hsnd⟩ := ih ht
      rw [List.length_cons, splitAt]
      · refine ⟨?_, hsnd⟩
        rw [normalize_return_of_head?, hfst]
        rw [← splitAt_append u.length t] at hhead
        intro hnewline
        exact hhead (by rw [List.head?_append, hnewline]; rfl)
      · intro w _ hw
        exact hnext w hw
    | case4 c t _ hc =>
      rw [normalize_cons_of_ne hc] at h
      obtain ⟨rfl, ht⟩ := List.cons.inj h
      obtain ⟨hfst, hsnd⟩ := ih ht
      rw [List.length_cons, splitAt]
      · exact ⟨(normalize_cons_of_ne hc _).trans (congrArg (_ :: ·) hfst), hsnd⟩
      · intro w hreturn
        exact absurd hreturn hc

-- Wherever the normalised text is split, the text can be split too.
theorem exists_append_of_normalize {t u v : List Char} (h : normalize t = u ++ v) :
    ∃ s r, t = s ++ r ∧ normalize s = u ∧ normalize r = v :=
  ⟨_, _, (splitAt_append u.length t).symm, normalize_splitAt h⟩

/-! ## 2. Places -/

-- Lines and columns can be counted at the end of the text or along it.
theorem following_eq_advance (t : List Char) :
    following t = Position.start.advance (normalize t) := by
  unfold following count lastLine
  -- Along the text, the last character is the one that decides on the place behind it.
  induction normalize t using List.reverseRecOn with
  | nil => rfl
  | append_singleton u c ih =>
    rw [Position.advance_append, ← ih]
    by_cases hc : c = '\n'
    · subst hc
      simp [Nat.add_assoc]
    · have hcount : (u ++ [c]).count '\n' = u.count '\n' := by
        have hnone : [c].count '\n' = 0 := List.count_eq_zero.mpr (by simpa using Ne.symm hc)
        rw [List.count_append, hnone, Nat.add_zero]
      rw [Position.advance_cons, Position.advance_nil, Position.after_of_ne hc, hcount]
      simp [hc, Nat.add_assoc]

end LineBreak

end ScriptMinifier
