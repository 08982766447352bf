import Mathlib.Algebra.GroupWithZero.Nat
import Mathlib.Data.String.Basic
import ScriptMinifier.Proofs.Head
import ScriptMinifier.Proofs.Transcript

/-!
What a run has written and holds is paid for with what it has read. A token, a literal and a
separator each take no more room than the part of the text that they were read from, so that at
no time a run has made more of its text than there was.
-/

namespace ScriptMinifier

/-! ## 1. Measures -/

/-- A way to measure texts, in which no character counts for less than a separator. -/
structure Measure where
  char : Char → Nat
  space_le : ∀ c, char ' ' ≤ char c
  newline_le : ∀ c, char '\n' ≤ char c

namespace Measure

def size (m : Measure) (t : List Char) : Nat := (t.map m.char).sum

def bytes : Measure := ⟨Char.utf8Size, Char.utf8Size_pos, Char.utf8Size_pos⟩

def characters : Measure := ⟨fun _ => 1, fun _ => Nat.le_refl 1, fun _ => Nat.le_refl 1⟩

variable (m : Measure)

@[simp] theorem size_nil : m.size [] = 0 := rfl

@[simp] theorem size_cons (c : Char) (t : List Char) : m.size (c :: t) = m.char c + m.size t := by
  simp [size]

@[simp] theorem size_append (s t : List Char) : m.size (s ++ t) = m.size s + m.size t := by
  simp [size]

theorem size_bytes (t : List Char) : bytes.size t = String.utf8Len t := by
  induction t with
  | nil => rfl
  | cons c t ih =>
    rw [size_cons, ih, String.utf8Len_cons, Nat.add_comm]
    rfl

theorem size_characters (t : List Char) : characters.size t = t.length := by
  simp [size, characters]

theorem char_foldControl_le (c : Char) : m.char (CharClass.foldControl c) ≤ m.char c := by
  unfold CharClass.foldControl
  split
  · exact m.space_le c
  · exact Nat.le_refl _

end Measure

/-! ## 2. What a cursor spends -/

theorem LineBreak.suffix_of_uncons? {t u : List Char} {c : Char} (h : uncons? t = some (c, u)) :
    u <:+ t := by
  unfold uncons? at h
  split at h
  · cases h
  · cases h
    exact ⟨['\r', '\n'], rfl⟩
  · cases h
    exact ⟨['\r'], rfl⟩
  · cases h
    exact ⟨[c], rfl⟩

-- A line break of two characters is read as one.
theorem Measure.size_le_of_uncons? (m : Measure) {t u : List Char} {c : Char}
    (h : LineBreak.uncons? t = some (c, u)) : m.char c + m.size u ≤ m.size t := by
  have hreturn := m.newline_le '\r'
  unfold LineBreak.uncons? at h
  split at h
  · cases h
  · cases h
    rw [size_cons, size_cons]
    omega
  · cases h
    rw [size_cons]
    omega
  · cases h
    rw [size_cons]

namespace Cursor

/-- On its way from `c` to `d`, a cursor has read a part of the text no smaller than `n`. -/
structure Spends (m : Measure) (c : Cursor) (n : Nat) (d : Cursor) : Prop where
  suffix : d.rest <:+ c.rest
  size_le : n + m.size d.rest ≤ m.size c.rest

variable {m : Measure} {c d e : Cursor} {n k : Nat}

theorem Spends.refl (m : Measure) (c : Cursor) : c.Spends m 0 c :=
  ⟨List.suffix_refl _, Nat.le_of_eq (Nat.zero_add _)⟩

theorem Spends.trans (first : c.Spends m n d) (second : d.Spends m k e) :
    c.Spends m (n + k) e where
  suffix := second.suffix.trans first.suffix
  size_le := by
    have := first.size_le
    have := second.size_le
    omega

theorem Spends.mono (h : c.Spends m n d) (hle : k ≤ n) : c.Spends m k d :=
  ⟨h.suffix, Nat.le_trans (Nat.add_le_add_right hle _) h.size_le⟩

theorem spends_of_read? {ch : Char} (h : c.read? = some (ch, d)) : c.Spends m (m.char ch) d := by
  simp only [read?, Option.map_eq_some_iff] at h
  obtain ⟨⟨x, t⟩, ht, hd⟩ := h
  cases hd
  exact ⟨LineBreak.suffix_of_uncons? ht, m.size_le_of_uncons? ht⟩

theorem skipLine_spends (m : Measure) (c : Cursor) :
    c.Spends m (m.size c.skipLine.1.toList) c.skipLine.2 := by
  fun_induction skipLine c with
  | case1 => exact .refl m _
  | case2 c d h => exact spends_of_read? h
  | case3 c ch d h _ ih => exact ((spends_of_read? h).trans ih).mono (Nat.le_add_left _ _)

theorem skipBlock_spends (m : Measure) (c : Cursor) : c.Spends m 0 c.skipBlock.2 := by
  fun_induction skipBlock c with
  | case1 => exact .refl m _
  | case2 c ch d h e he =>
    have hslash : d.readSlash? = some e := by
      split at he
      · exact he
      · cases he
    exact ((spends_of_read? h).trans (spends_of_read? (read?_of_readSlash? hslash))).mono
      (Nat.zero_le _)
  | case3 c ch d h _ ih => exact ((spends_of_read? h).trans ih).mono (Nat.zero_le _)

-- A comment takes at least the room of its first slash, and its token no more than that.
theorem token_spends {token : Option Char} (h : c.token.outcome = .ok token) :
    c.Spends m (m.size token.toList) c.token.cursor := by
  unfold Cursor.token at h ⊢
  split at h
  · cases h
    exact .refl m c
  · rename_i d hd
    have hslash := spends_of_read? (m := m) hd
    split at h
    · rename_i e he
      cases h
      exact ((hslash.trans (spends_of_read? he)).trans (skipLine_spends m e)).mono
        (Nat.le_add_left _ _)
    · rename_i e he
      have hblock := (hslash.trans (spends_of_read? he)).trans (skipBlock_spends m e)
      split at h
      · rename_i f hf
        cases h
        rw [hf] at hblock
        apply hblock.mono
        have hspace := m.space_le '/'
        rw [Option.toList_some, Measure.size_cons, Measure.size_nil]
        omega
      · cases h
    · cases h
      exact hslash
  · rename_i ch d _ hd
    cases h
    exact (spends_of_read? hd).mono (m.char_foldControl_le ch)

theorem copyBody_spends {close : Char} {out copied : String}
    (h : (c.copyBody close out).1 = some copied) :
    ∃ body, copied.toList = out.toList ++ body ∧
      c.Spends m (m.size (body ++ [close])) (c.copyBody close out).2 := by
  fun_induction copyBody close c out with
  | case1 => cases h
  | case2 c out d hd =>
    cases h
    exact ⟨[], (List.append_nil _).symm, spends_of_read? hd⟩
  | case3 => cases h
  | case4 => cases h
  | case5 c out d escaped e he hd _ _ ih =>
    obtain ⟨body, hcopied, hspends⟩ := ih h
    refine ⟨'\\' :: escaped :: body, ?_, ?_⟩
    · rw [hcopied, String.toList_push, String.toList_push]
      simp
    · apply (((spends_of_read? hd).trans (spends_of_read? he)).trans hspends).mono
      rw [List.cons_append, List.cons_append, Measure.size_cons, Measure.size_cons]
      omega
  | case6 c out ch d hd _ _ _ ih =>
    obtain ⟨body, hcopied, hspends⟩ := ih h
    refine ⟨ch :: body, ?_, ?_⟩
    · rw [hcopied, String.toList_push]
      simp
    · apply ((spends_of_read? hd).trans hspends).mono
      rw [List.cons_append, Measure.size_cons]

theorem copyLiteral_spends {k : Construct} {close : Char} {out copied : String}
    (h : (c.copyLiteral k close out).outcome = .ok copied) :
    ∃ body, copied.toList = out.toList ++ body ∧
      c.Spends m (m.size (body ++ [close])) (c.copyLiteral k close out).cursor := by
  unfold copyLiteral at h ⊢
  split at h
  · rename_i copied' d hcopy
    cases h
    have hbody := @copyBody_spends m c close out copied (by rw [hcopy])
    rwa [hcopy] at hbody
  · cases h

end Cursor

/-! ## 3. What a run spends -/

namespace Run

/-- What is written, and then the tokens `window`, take no more room than what has been read. -/
def Paid (m : Measure) (text : String) (r : Run) (window : List Char) : Prop :=
  (Cursor.ofText text).Spends m (m.size (r.output.toList ++ window)) r.cursor

variable {m : Measure} {text : String} {n : Nat} {r s : Run}

theorem paid_start (m : Measure) (text : String) : (start text).Paid m text [] :=
  Cursor.Spends.refl m _

theorem Paid.nothing {window : List Char} (h : r.Paid m text window) : r.Paid m text [] := by
  apply Cursor.Spends.mono h
  rw [List.append_nil, Measure.size_append]
  exact Nat.le_add_right _ _

theorem write_paid {token : Char} {window : List Char} (h : r.Paid m text (token :: window)) :
    (r.write token).Paid m text window := by
  unfold write
  split
  · apply Cursor.Spends.mono h
    rw [Measure.size_append, Measure.size_append, Measure.size_cons]
    omega
  · unfold Paid at h ⊢
    rwa [String.toList_push, List.append_assoc]

theorem readUpcoming_paid {window : List Char} (h : r.Paid m text window)
    (hread : r.readUpcoming = .ok s) : s.Paid m text (window ++ s.upcoming.toList) := by
  obtain ⟨token, htoken, rfl⟩ := follow_eq_ok hread
  have hspends := Cursor.Spends.trans h (Cursor.token_spends htoken)
  rwa [← Measure.size_append, List.append_assoc] at hspends

-- The closing delimiter of a literal is read with it, and then is the current token.
theorem paid_of_copyLiteral {k : Construct} {close : Char} {out copied : String}
    {opened : List Char} {current upcoming : Option Char} {log : Array Record}
    (h : r.Paid m text opened) (hout : out.toList = r.output.toList ++ opened)
    (hcopied : (r.cursor.copyLiteral k close out).outcome = .ok copied) :
    Paid m text ⟨(r.cursor.copyLiteral k close out).cursor, copied, current, upcoming, log⟩
      [close] := by
  obtain ⟨body, htext, hspends⟩ := Cursor.copyLiteral_spends hcopied
  have hall := Cursor.Spends.trans h hspends
  rwa [← Measure.size_append, ← List.append_assoc, ← hout, ← htext] at hall

theorem copyRegex_paid {opener : Char} (h : r.Paid m text [opener, '/'])
    (hcopy : copyRegex opener r = .ok s) : s.Paid m text ['/'] := by
  obtain ⟨copied, hcopied, rfl⟩ := copyRegex_eq_ok hcopy
  apply paid_of_copyLiteral h _ hcopied
  simp

theorem shift_paid (h : r.Paid m text r.upcoming.toList) (hshift : r.shift = .ok s) :
    s.Paid m text s.current.toList := by
  rcases shift_cases hshift with
    ⟨hupcoming, rfl⟩ | ⟨quote, copied, hupcoming, -, hcopied, rfl⟩ | ⟨ch, hupcoming, -, rfl⟩
  · rw [hupcoming] at h
    exact h
  · rw [hupcoming] at h
    exact paid_of_copyLiteral h (String.toList_push ..) hcopied
  · rw [hupcoming] at h
    exact h

theorem fetch_paid (h : r.Paid m text r.current.toList) (hfetch : r.fetch = .ok s) :
    s.Paid m text (s.current.toList ++ s.upcoming.toList) := by
  obtain ⟨t, hread, hcases⟩ := fetch_cases hfetch
  have hpaid := readUpcoming_paid h hread
  rw [← (readUpcoming_keeps hread).1] at hpaid
  rcases hcases with ⟨opener, u, hopener, hslash, -, hcopy, hread'⟩ | ⟨rfl, -⟩
  · rw [hopener, hslash] at hpaid
    have hregex := readUpcoming_paid (copyRegex_paid hpaid hcopy) hread'
    rwa [(readUpcoming_keeps hread').1, copyRegex_current hcopy]
  · exact hpaid

theorem step_paid {current : Char} (hcurrent : r.current = some current)
    (h : r.Paid m text (r.current.toList ++ r.upcoming.toList))
    (hstep : r.step current = .ok s) :
    s.Paid m text (s.current.toList ++ s.upcoming.toList) := by
  rw [hcurrent] at h
  rcases step_cases hstep with ⟨t, -, hshift, hfetch⟩ | ⟨t, -, hshift, hfetch⟩ | ⟨-, hfetch⟩
  · apply fetch_paid (shift_paid _ hshift) hfetch
    rw [write_upcoming]
    exact write_paid h
  · apply fetch_paid (shift_paid _ hshift) hfetch
    apply Cursor.Spends.mono h
    simp
  · apply fetch_paid _ hfetch
    apply Cursor.Spends.mono h
    rw [hcurrent]
    simp

/-! ## 4. The newline in front of the text -/

-- A newline introduces no regular expression.
theorem fetch_of_newline (hcurrent : r.current = some '\n') (h : r.fetch = .ok s) :
    r.readUpcoming = .ok s := by
  obtain ⟨t, hread, ⟨opener, u, hopener, -, hintroduces, -⟩ | ⟨rfl, -⟩⟩ := fetch_cases h
  · rw [(readUpcoming_keeps hread).1, hcurrent] at hopener
    cases hopener
    exact absurd hintroduces (by decide)
  · exact hread

theorem fetch_step (hcurrent : r.current = some '\n')
    (hdropped : Action.choose '\n' r.upcoming = .fetch) (h : r.step '\n' = .ok s) :
    r.readUpcoming = .ok s := by
  apply fetch_of_newline hcurrent
  rwa [step_of_fetch hdropped] at h

-- Before the window moves on for the first time, nothing is written.
theorem Leading.window (h : Leading text n r) : r.current = some '\n' ∧ r.output = "" := by
  induction h with
  | first fetched => exact readUpcoming_keeps (fetch_of_newline rfl fetched)
  | next _ dropped stepped ih =>
    obtain ⟨hcurrent, houtput⟩ := readUpcoming_keeps (fetch_step ih.1 dropped stepped)
    exact ⟨hcurrent.trans ih.1, houtput.trans ih.2⟩

theorem Leading.paid (m : Measure) (h : Leading text n r) :
    r.Paid m text r.upcoming.toList := by
  induction h with
  | first fetched => exact readUpcoming_paid (paid_start m text) (fetch_of_newline rfl fetched)
  | next leading dropped stepped ih =>
    exact readUpcoming_paid ih.nothing (fetch_step leading.window.1 dropped stepped)

-- Once the window has moved on, both of its tokens come from the text.
theorem Leading.step_paid (h : Leading text n r)
    (hmoved : Action.choose '\n' r.upcoming ≠ .fetch) (hstep : r.step '\n' = .ok s) :
    s.Paid m text (s.current.toList ++ s.upcoming.toList) := by
  rcases step_cases hstep with
    ⟨t, -, hshift, hfetch⟩ | ⟨t, -, hshift, hfetch⟩ | ⟨haction, -⟩
  · have hwrite : r.write '\n' = r := by simp [write, h.window.2]
    rw [hwrite] at hshift
    exact fetch_paid (shift_paid (h.paid m) hshift) hfetch
  · exact fetch_paid (shift_paid (h.paid m) hshift) hfetch
  · contradiction

theorem Head.paid (m : Measure) (h : Head text n r) :
    Leading text n r ∨ r.Paid m text (r.current.toList ++ r.upcoming.toList) := by
  induction h with
  | first fetched => exact .inl (.first fetched)
  | @next n r s current head pending stepped ih =>
    rcases ih with hleading | hpaid
    · obtain rfl : '\n' = current := Option.some.inj (hleading.window.1.symm.trans pending)
      by_cases hdropped : Action.choose '\n' r.upcoming = .fetch
      · exact .inl (.next hleading hdropped stepped)
      · exact .inr (hleading.step_paid hdropped stepped)
    · exact .inr (Run.step_paid pending hpaid stepped)

theorem Paid.exists_read {window : List Char} (h : r.Paid .bytes text window) :
    ∃ read, text.toList = read ++ r.cursor.rest ∧
      r.output.utf8ByteSize + String.utf8Len window ≤ String.utf8Len read := by
  obtain ⟨read, hread⟩ := h.suffix
  refine ⟨read, hread.symm, ?_⟩
  have hsize := h.size_le
  rw [← hread] at hsize
  simp only [Measure.size_bytes, String.utf8Len_append, String.utf8Len_toList] at hsize
  omega

end Run

/-! ## 5. The size of the output -/

theorem size_le_of_minify (m : Measure) {text out : String} (h : minify text = .ok out) :
    m.size out.toList ≤ m.size text.toList := by
  obtain ⟨n, r, hhead, -, rfl⟩ := exists_head_of_minify h
  have hpaid : r.Paid m text [] := by
    rcases hhead.paid m with hleading | hpaid
    · exact (hleading.paid m).nothing
    · exact hpaid.nothing
  have hsize := hpaid.size_le
  rw [List.append_nil] at hsize
  exact Nat.le_trans (Nat.le_add_right _ _) hsize

theorem utf8ByteSize_le_of_minify {text out : String} (h : minify text = .ok out) :
    out.utf8ByteSize ≤ text.utf8ByteSize := by
  have hsize := size_le_of_minify .bytes h
  rwa [Measure.size_bytes, Measure.size_bytes, String.utf8Len_toList, String.utf8Len_toList]
    at hsize

/-- At no time is more written and held than the run has read of its text, whether it will succeed
or not. The newline in front of the text does not count, as it is never written. So no result is
longer than its text, neither in bytes nor in characters. -/
theorem output_size_le (text : String) :
    (∀ n r, Run.Head text n r → ∃ read, text.toList = read ++ r.cursor.rest ∧
      (Run.Leading text n r →
        r.output.utf8ByteSize + String.utf8Len r.upcoming.toList ≤ String.utf8Len read) ∧
      (¬ Run.Leading text n r →
        r.output.utf8ByteSize +
          (String.utf8Len r.current.toList + String.utf8Len r.upcoming.toList) ≤
            String.utf8Len read)) ∧
      ∀ out, minify text = .ok out →
        out.utf8ByteSize ≤ text.utf8ByteSize ∧ out.length ≤ text.length := by
  constructor
  · intro n r hhead
    rcases hhead.paid .bytes with hleading | hpaid
    · obtain ⟨read, hread, hsize⟩ := (hleading.paid .bytes).exists_read
      exact ⟨read, hread, fun _ => hsize, fun hmoved => absurd hleading hmoved⟩
    · obtain ⟨read, hread, hsize⟩ := hpaid.exists_read
      rw [String.utf8Len_append] at hsize
      refine ⟨read, hread, fun _ => ?_, fun _ => hsize⟩
      omega
  · intro out h
    refine ⟨utf8ByteSize_le_of_minify h, ?_⟩
    have hlength := size_le_of_minify .characters h
    rwa [Measure.size_characters, Measure.size_characters, String.length_toList,
      String.length_toList] at hlength

theorem output_size_le_regex :
    (∃ r, Run.Head "/**/é = /a b/ c" 5 r ∧ ¬ Run.Leading "/**/é = /a b/ c" 5 r ∧
      r.output = "é=/a b" ∧ r.current = some '/' ∧ r.upcoming = some ' ' ∧
      ∃ read, "/**/é = /a b/ c".toList = read ++ r.cursor.rest ∧
        7 + (1 + 1) ≤ String.utf8Len read) ∧
    minify "/**/é = /a b/ c" = .ok "é=/a b/c" ∧
      "é=/a b/c".utf8ByteSize ≤ "/**/é = /a b/ c".utf8ByteSize := by
  constructor
  · obtain ⟨r, hhead, hr⟩ := @Run.exists_head_of_after "/**/é = /a b/ c" 5
      (fun r => r.output = "é=/a b" ∧ r.current = some '/' ∧ r.upcoming = some ' ')
      (by decide +kernel)
    obtain ⟨houtput, hcurrent, hupcoming⟩ := of_decide_eq_true hr
    have hmoved : ¬ Run.Leading "/**/é = /a b/ c" 5 r := by
      intro hleading
      rw [hleading.window.1] at hcurrent
      cases hcurrent
    obtain ⟨read, hread, -, hsize⟩ := (output_size_le _).1 5 r hhead
    have hle := hsize hmoved
    rw [houtput, hcurrent, hupcoming] at hle
    exact ⟨r, hhead, hmoved, houtput, hcurrent, hupcoming, read, hread, hle⟩
  · have h : minify "/**/é = /a b/ c" = .ok "é=/a b/c" := by
      rw [minify_eq_ok_iff]
      decide +kernel
    exact ⟨h, ((output_size_le _).2 _ h).1⟩

end ScriptMinifier
