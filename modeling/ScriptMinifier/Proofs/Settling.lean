import ScriptMinifier.Proofs.Budget
import ScriptMinifier.Proofs.Idempotence

/-!
Minifying a text again and again. A result is only changed by a second pass where it reads as a
comment now what were two items before, and a comment takes more room than what stands for it. So
every pass that changes something makes the text shorter, and the passes settle.
-/

namespace ScriptMinifier

/-! ## 1. One more pass -/

-- A result that holds no comment stays as it is.
theorem minify_of_clean {s o : String} (h : minify s = .ok o) (hclean : (Reading.ofText o).Clean) :
    minify o = .ok o := by
  apply minify_of_apart h
  obtain ⟨-, rfl⟩ := minify_eq_ok_iff.mp h
  rw [Reading.ofText_compact] at hclean
  exact Reading.isChain_of_clean (Reading.fit_read none _) hclean

-- A result that holds a comment loses it.
theorem utf8ByteSize_lt_of_comment {s o p : String} (h : minify s = .ok o) (hp : minify o = .ok p)
    {x : Lexeme} (hx : x ∈ (Reading.ofText o).lexemes) (hcomment : x.isComment = true) :
    p.utf8ByteSize < o.utf8ByteSize := by
  obtain ⟨hopen, rfl⟩ := minify_eq_ok_iff.mp hp
  have hspell := Reading.flatMap_text_of_closed hopen
  rw [LineBreak.normalize_eq_self (Reading.return_notMem_of_minify h)] at hspell
  have hlength := Layout.utf8Len_write_le none .none (Reading.ofText o).lexemes
  rw [hspell, String.utf8Len_toList, Gap.size] at hlength
  have hcount := List.countP_pos_iff.mpr ⟨x, hx, hcomment⟩
  rw [Layout.compact, String.utf8ByteSize_ofList]
  omega

theorem minify_again {s o : String} (h : minify s = .ok o) :
    (∃ fault, minify o = .error fault) ∨ minify o = .ok o ∨
      ∃ p, minify o = .ok p ∧ p.utf8ByteSize < o.utf8ByteSize := by
  cases hp : minify o with
  | error fault => exact .inl ⟨fault, rfl⟩
  | ok p =>
    by_cases hcomment : ∃ x ∈ (Reading.ofText o).lexemes, x.isComment = true
    · obtain ⟨x, hx, hcomment⟩ := hcomment
      exact .inr (.inr ⟨p, rfl, utf8ByteSize_lt_of_comment h hp hx hcomment⟩)
    · have hclean : (Reading.ofText o).Clean := by
        refine ⟨(minify_eq_ok_iff.mp hp).1, fun x hx => ?_⟩
        rw [← Bool.not_eq_true]
        exact fun hx' => hcomment ⟨x, hx, hx'⟩
      exact .inr (.inl (hp.symm.trans (minify_of_clean h hclean)))

/-! ## 2. Many passes -/

/-- A fault, or a text that another pass leaves as it is. -/
def Settled (result : Except Fault String) : Prop :=
  (∃ fault, result = .error fault) ∨ ∃ p, result = .ok p ∧ minify p = .ok p

theorem passes_of_error {s : String} {fault : Fault} (h : minify s = .error fault) (n : Nat) :
    passes s (n + 1) = [.error fault] := by
  unfold passes
  rw [h]

theorem passes_of_ok {s o : String} (h : minify s = .ok o) (n : Nat) :
    passes s (n + 1) = .ok o :: passes o n := by
  conv_lhs => unfold passes
  rw [h]

theorem passes_of_fixed {p : String} (h : minify p = .ok p) (n : Nat) :
    passes p n = List.replicate n (.ok p) := by
  induction n with
  | zero => rfl
  | succ n ih => rw [passes_of_ok h, ih, List.replicate_succ]

theorem minify_empty : minify "" = .ok "" := by
  rw [minify_eq_ok_iff]
  decide +kernel

-- Behind a result, as many passes as it has bytes are enough.
theorem settled_behind {s o : String} {n : Nat} (h : minify s = .ok o) (hn : o.utf8ByteSize ≤ n) :
    ∃ result, (.ok o :: passes o n).getLast? = some result ∧ Settled result := by
  induction n generalizing s o with
  | zero =>
    obtain rfl : o = "" := String.utf8ByteSize_eq_zero_iff.mp (Nat.le_zero.mp hn)
    exact ⟨.ok "", rfl, .inr ⟨"", rfl, minify_empty⟩⟩
  | succ n ih =>
    rcases minify_again h with ⟨fault, hfault⟩ | hfixed | ⟨p, hp, hshorter⟩
    · rw [passes_of_error hfault]
      exact ⟨.error fault, rfl, .inl ⟨fault, rfl⟩⟩
    · rw [passes_of_fixed hfixed, ← List.replicate_succ]
      exact ⟨.ok o, List.getLast?_replicate, .inr ⟨o, rfl, hfixed⟩⟩
    · rw [passes_of_ok hp, List.getLast?_cons_cons]
      exact ih hp (Nat.le_of_lt_succ (Nat.lt_of_lt_of_le hshorter hn))

/-- A second pass fails, changes nothing, or makes the result shorter. So after more passes than
the text has bytes there is a fault, or a result that stays as it is. -/
theorem passes_settle (s : String) :
    (∀ o, minify s = .ok o → (∃ fault, minify o = .error fault) ∨ minify o = .ok o ∨
      ∃ p, minify o = .ok p ∧ p.utf8ByteSize < o.utf8ByteSize) ∧
    ∀ n, 1 + s.utf8ByteSize ≤ n →
      ∃ result, (passes s n).getLast? = some result ∧ Settled result := by
  constructor
  · exact fun o h => minify_again h
  · intro n hn
    obtain ⟨k, rfl⟩ := Nat.exists_eq_add_of_le' (Nat.le_trans (Nat.le_add_right 1 _) hn)
    cases h : minify s with
    | error fault =>
      rw [passes_of_error h]
      exact ⟨.error fault, rfl, .inl ⟨fault, rfl⟩⟩
    | ok o =>
      rw [passes_of_ok h]
      have hsize := utf8ByteSize_le_of_minify h
      exact settled_behind h (by omega)

end ScriptMinifier
