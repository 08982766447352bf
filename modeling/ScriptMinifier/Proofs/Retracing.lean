import ScriptMinifier.Proofs.Head
import ScriptMinifier.Proofs.Transcript

/-!
Two runs that go the same way. The texts of the two are the same as far as a quote, and nothing that
a run does before it has read the quote depends on what comes behind. So the runs pass through the
same states, up to the text that is left to each.
-/

namespace ScriptMinifier

/-! ## 1. Cursors -/

/-- A place where two texts part: behind a quote, one goes on as `left`, the other as `right`. -/
structure Fork where
  quote : Char
  left : List Char
  right : List Char
  is_quote : CharClass.isQuote quote = true
  /-- A run over the one text does not stop at the fork for want of text. -/
  left_ne_nil : left ≠ []

theorem Fork.ne_quote (fork : Fork) {ch : Char} (h : CharClass.isQuote ch = false) :
    ch ≠ fork.quote := by
  rintro rfl
  rw [fork.is_quote] at h
  cases h

-- Two texts that part behind a quote begin with the same character. No line break reaches over the
-- quote, so that it is also read as the same.
theorem Fork.uncons?_append (fork : Fork) {t : List Char} (h : t.getLast? = some fork.quote) :
    ∃ ch u, (u = [] ∧ ch = fork.quote ∨ u.getLast? = some fork.quote) ∧
      ∀ v, LineBreak.uncons? (t ++ v) = some (ch, u ++ v) := by
  cases t with
  | nil => cases h
  | cons a t =>
    by_cases ha : a = '\r'
    · subst ha
      cases t with
      | nil => exact absurd (Option.some.inj h) (fork.ne_quote rfl)
      | cons b t =>
        rw [List.getLast?_cons_cons] at h
        by_cases hb : b = '\n'
        · subst hb
          cases t with
          | nil => exact absurd (Option.some.inj h) (fork.ne_quote rfl)
          | cons c t => exact ⟨'\n', c :: t, .inr h, fun v => rfl⟩
        · refine ⟨'\n', b :: t, .inr h, fun v => ?_⟩
          rw [List.cons_append, List.cons_append, LineBreak.uncons?]
          rintro u hu
          exact hb (List.cons.inj hu).1
    · have huncons (v : List Char) : LineBreak.uncons? (a :: (t ++ v)) = some (a, t ++ v) := by
        rw [LineBreak.uncons?]
        · rintro u hu
          exact absurd hu ha
        · exact ha
      refine ⟨a, t, ?_, huncons⟩
      cases t with
      | nil => exact .inl ⟨rfl, Option.some.inj h⟩
      | cons b t => exact .inr h

namespace Cursor

/-- The cursor `c` reads the one text, and `d` the other. The two have the same before them up to
the fork, or else they have just reached it. -/
def Abreast (fork : Fork) (c d : Cursor) : Prop :=
  ∃ t : List Char, (t = [] ∨ t.getLast? = some fork.quote) ∧
    c.rest = t ++ fork.left ∧ d.rest = t ++ fork.right

variable {fork : Fork} {c d : Cursor}

theorem Abreast.rest_ne_nil (h : Abreast fork c d) : c.rest ≠ [] := by
  obtain ⟨t, -, hrest, -⟩ := h
  rw [hrest]
  exact List.append_ne_nil_of_right_ne_nil t fork.left_ne_nil

theorem Abreast.rest_eq (h : Abreast fork c d) (hrest : c.rest = fork.left) :
    d.rest = fork.right := by
  obtain ⟨t, -, hleft, hright⟩ := h
  obtain rfl : t = [] := by simpa using hleft.symm.trans hrest
  exact hright

-- In front of the fork the two read the same, and only the quote can be the last thing they read.
theorem Abreast.read_of_lt (h : Abreast fork c d) (hlt : fork.left.length < c.rest.length) :
    ∃ ch c' d', c.read? = some (ch, c') ∧ d.read? = some (ch, d') ∧ Abreast fork c' d' ∧
      (ch ≠ fork.quote → fork.left.length < c'.rest.length) := by
  obtain ⟨t, ht, hleft, hright⟩ := h
  have hlast : t.getLast? = some fork.quote := by
    apply ht.resolve_left
    rintro rfl
    rw [hleft] at hlt
    exact Nat.lt_irrefl _ hlt
  obtain ⟨ch, u, hu, huncons⟩ := fork.uncons?_append hlast
  refine ⟨ch, ⟨u ++ fork.left, c.next.after ch, c.next⟩,
    ⟨u ++ fork.right, d.next.after ch, d.next⟩, ?_, ?_, ⟨u, hu.imp_left And.left, rfl, rfl⟩, ?_⟩
  · rw [read?, hleft, huncons]
    rfl
  · rw [read?, hright, huncons]
    rfl
  · intro hch
    have hne : u ≠ [] := by
      rintro rfl
      rcases hu with ⟨-, hquote⟩ | hnil
      · exact hch hquote
      · cases hnil
    show _ < (u ++ fork.left).length
    rw [List.length_append]
    exact Nat.lt_add_of_pos_left (List.length_pos_iff.mpr hne)

theorem Abreast.read {e : Cursor} {ch : Char} (h : Abreast fork c d)
    (hread : c.read? = some (ch, e)) (hle : fork.left.length ≤ e.rest.length) :
    ∃ f, d.read? = some (ch, f) ∧ Abreast fork e f ∧
      (ch ≠ fork.quote → fork.left.length < e.rest.length) := by
  obtain ⟨x, e', f, hc, hd, hnext, hquote⟩ :=
    h.read_of_lt (Nat.lt_of_le_of_lt hle (rest_length_lt_of_read? hread))
  cases hread.symm.trans hc
  exact ⟨f, hd, hnext, hquote⟩

/-! A scan of the one text is a scan of the other, if it has not passed the fork when it stops. -/

theorem Abreast.skipLine (h : Abreast fork c d)
    (hle : fork.left.length ≤ c.skipLine.2.rest.length) :
    ∃ e, d.skipLine = (c.skipLine.1, e) ∧ Abreast fork c.skipLine.2 e := by
  fun_induction Cursor.skipLine c generalizing d with
  | case1 c hnone => exact absurd (read?_eq_none_iff.mp hnone) h.rest_ne_nil
  | case2 c c' hread =>
    obtain ⟨e, hd, hnext, -⟩ := h.read hread hle
    exact ⟨e, skipLine_of_read? hd, hnext⟩
  | case3 c ch c' hread hne ih =>
    obtain ⟨e, hd, hnext, -⟩ := h.read hread (Nat.le_trans hle (skipLine_rest_length_le c'))
    rw [skipLine_of_read? hd, if_neg hne]
    exact ih hnext hle

theorem Abreast.readSlash? (h : Abreast fork c d) (hlt : fork.left.length < c.rest.length) :
    (∃ c' e, c.readSlash? = some c' ∧ d.readSlash? = some e ∧ Abreast fork c' e) ∨
      c.readSlash? = none ∧ d.readSlash? = none := by
  obtain ⟨ch, c', e, hc, hd, hnext, -⟩ := h.read_of_lt hlt
  rw [readSlash?_of_read? hc, readSlash?_of_read? hd]
  by_cases hslash : ch = '/'
  · rw [if_pos hslash, if_pos hslash]
    exact .inl ⟨c', e, rfl, rfl, hnext⟩
  · rw [if_neg hslash, if_neg hslash]
    exact .inr ⟨rfl, rfl⟩

theorem Abreast.skipBlock (h : Abreast fork c d)
    (hle : fork.left.length ≤ c.skipBlock.2.rest.length) :
    ∃ e, d.skipBlock = (c.skipBlock.1, e) ∧ Abreast fork c.skipBlock.2 e := by
  fun_induction Cursor.skipBlock c generalizing d with
  | case1 c hnone => exact absurd (read?_eq_none_iff.mp hnone) h.rest_ne_nil
  | case2 c ch c' hread f hslash =>
    obtain ⟨rfl, hslash⟩ : ch = '*' ∧ c'.readSlash? = some f := by
      split at hslash
      · exact ⟨by assumption, hslash⟩
      · cases hslash
    have hlt := rest_length_lt_of_read? (read?_of_readSlash? hslash)
    obtain ⟨e, hd, hnext, -⟩ := h.read hread (Nat.le_of_lt (Nat.lt_of_le_of_lt hle hlt))
    obtain ⟨e', hd', hnext', -⟩ := hnext.read (read?_of_readSlash? hslash) hle
    refine ⟨e', ?_, hnext'⟩
    rw [skipBlock_of_read? hd, if_pos rfl, readSlash?_of_read? hd', if_pos rfl]
    rfl
  | case3 c ch c' hread hopen ih =>
    obtain ⟨e, hd, hnext, hquote⟩ :=
      h.read hread (Nat.le_trans hle (skipBlock_rest_length_le c'))
    have hopen' : (if ch = '*' then e.readSlash? else none) = none := by
      by_cases hstar : ch = '*'
      · have hne : '*' ≠ fork.quote := fork.ne_quote rfl
        rw [if_pos hstar]
        rcases hnext.readSlash? (hquote (hstar ▸ hne)) with ⟨f, e', hf, -⟩ | ⟨-, hnone⟩
        · rw [dif_pos hstar, hf] at hopen
          cases hopen
        · exact hnone
      · exact if_neg hstar
    rw [skipBlock_of_read? hd, hopen']
    exact ih hnext hle

theorem Abreast.copyBody (h : Abreast fork c d) (close : Char) (out : String)
    (hle : fork.left.length ≤ (c.copyBody close out).2.rest.length) :
    ∃ e, d.copyBody close out = ((c.copyBody close out).1, e) ∧
      Abreast fork (c.copyBody close out).2 e := by
  fun_induction Cursor.copyBody close c out generalizing d with
  | case1 c out hnone => exact absurd (read?_eq_none_iff.mp hnone) h.rest_ne_nil
  | case2 c out c' hread =>
    obtain ⟨e, hd, hnext, -⟩ := h.read hread hle
    exact ⟨e, by rw [copyBody_of_read? hd, if_pos rfl], hnext⟩
  | case3 c out c' hread hclose =>
    obtain ⟨e, hd, hnext, -⟩ := h.read hread hle
    exact ⟨e, by rw [copyBody_of_read? hd, if_neg hclose, if_pos rfl], hnext⟩
  | case4 c out c' hnone hread =>
    obtain ⟨e, hd, hnext, -⟩ := h.read hread hle
    exact absurd (read?_eq_none_iff.mp hnone) hnext.rest_ne_nil
  | case5 c out c' escaped c'' hread' hread hclose _ ih =>
    have hle' := Nat.le_trans hle (copyBody_rest_length_le _ _ _)
    obtain ⟨e, hd, hnext, -⟩ :=
      h.read hread (Nat.le_of_lt (Nat.lt_of_le_of_lt hle' (rest_length_lt_of_read? hread')))
    obtain ⟨e', hd', hnext', -⟩ := hnext.read hread' hle'
    rw [copyBody_of_read? hd, if_neg hclose, if_neg (by decide), if_pos rfl, hd']
    exact ih hnext' hle
  | case6 c out ch c' hread hclose hnewline hescape ih =>
    obtain ⟨e, hd, hnext, -⟩ :=
      h.read hread (Nat.le_trans hle (copyBody_rest_length_le _ _ _))
    rw [copyBody_of_read? hd, if_neg hclose, if_neg hnewline, if_neg hescape]
    exact ih hnext hle

theorem Abreast.copyLiteral {k : Construct} {close : Char} {out copied : String}
    (h : Abreast fork c d) (hcopy : (c.copyLiteral k close out).outcome = .ok copied)
    (hle : fork.left.length ≤ (c.copyLiteral k close out).cursor.rest.length) :
    ∃ e, d.copyLiteral k close out = ⟨.ok copied, e⟩ ∧
      Abreast fork (c.copyLiteral k close out).cursor e := by
  unfold Cursor.copyLiteral at hcopy hle ⊢
  split at hcopy
  · rename_i copied' c' hbody
    cases hcopy
    obtain ⟨e, hd, hnext⟩ := h.copyBody close out (by rwa [hbody] at hle ⊢)
    rw [hbody] at hd hnext
    rw [hd]
    exact ⟨e, rfl, hnext⟩
  · cases hcopy

theorem Abreast.token {token : Option Char} (h : Abreast fork c d)
    (htoken : c.token.outcome = .ok token)
    (hle : fork.left.length ≤ c.token.cursor.rest.length) :
    ∃ e, d.token = ⟨.ok token, e⟩ ∧ Abreast fork c.token.cursor e := by
  obtain ⟨ch, c', d', hc, hd, hnext, hquote⟩ :=
    h.read_of_lt (Nat.lt_of_le_of_lt hle (token_rest_length_lt h.rest_ne_nil))
  by_cases hslash : ch = '/'
  · subst hslash
    -- A slash is not the quote, so that the character behind it is still in front of the fork.
    obtain ⟨ch, c'', d'', hc', hd', hnext', -⟩ :=
      hnext.read_of_lt (hquote (fork.ne_quote rfl))
    by_cases hline : ch = '/'
    · subst hline
      rw [token_of_slashes hc hc'] at htoken hle ⊢
      cases htoken
      obtain ⟨e, hskip, hskipped⟩ := hnext'.skipLine hle
      exact ⟨e, by rw [token_of_slashes hd hd', hskip], hskipped⟩
    by_cases hblock : ch = '*'
    · subst hblock
      rw [token_of_bracket hc hc'] at htoken hle ⊢
      obtain ⟨e, hskip, hskipped⟩ := hnext'.skipBlock hle
      refine ⟨e, ?_, hskipped⟩
      rw [token_of_bracket hd hd', hskip]
      cases hclosed : c''.skipBlock.1 with
      | true =>
        rw [hclosed] at htoken
        cases htoken
        rfl
      | false =>
        rw [hclosed] at htoken
        cases htoken
    · rw [token_of_slash hc hc' hline hblock] at htoken ⊢
      cases htoken
      exact ⟨d', token_of_slash hd hd' hline hblock, hnext⟩
  · rw [token_of_read? hc hslash] at htoken ⊢
    cases htoken
    exact ⟨d', token_of_read? hd hslash, hnext⟩

end Cursor

/-! ## 2. Runs -/

namespace Run

/-- The run `r`, with the text that is left to `d` before it. -/
def reading (r : Run) (d : Cursor) : Run := { r with cursor := d }

/-- A part of a run that reads on, and does the same in front of either text as long as it has not
passed the fork. -/
structure Retraces (fork : Fork) (f : Run → Except Abort Run) : Prop where
  onward : ∀ {r s : Run}, f r = .ok s → s.cursor.rest.length ≤ r.cursor.rest.length
  abreast : ∀ {r s : Run} {d : Cursor}, r.cursor.Abreast fork d → f r = .ok s →
    fork.left.length ≤ s.cursor.rest.length →
      ∃ e, f (r.reading d) = .ok (s.reading e) ∧ s.cursor.Abreast fork e

variable {fork : Fork}

theorem Retraces.bind {f g : Run → Except Abort Run} (hf : Retraces fork f)
    (hg : Retraces fork g) : Retraces fork fun r => f r >>= g where
  onward h := by
    obtain ⟨t, ht, hs⟩ := bind_eq_ok h
    exact Nat.le_trans (hg.onward hs) (hf.onward ht)
  abreast habreast h hle := by
    obtain ⟨t, ht, hs⟩ := bind_eq_ok h
    obtain ⟨e, hfirst, hmid⟩ := hf.abreast habreast ht (Nat.le_trans hle (hg.onward hs))
    obtain ⟨e', hsecond, hlast⟩ := hg.abreast hmid hs hle
    exact ⟨e', (congrArg (· >>= g) hfirst).trans hsecond, hlast⟩

theorem retraces_readUpcoming (fork : Fork) : Retraces fork readUpcoming where
  onward h := by
    obtain ⟨token, htoken, rfl⟩ := follow_eq_ok h
    exact Nat.le_trans (Nat.le_add_left _ _) (Cursor.token_length_le htoken)
  abreast {r s d} habreast h hle := by
    obtain ⟨token, htoken, rfl⟩ := follow_eq_ok h
    obtain ⟨e, hd, hnext⟩ := habreast.token htoken hle
    exact ⟨e, @readUpcoming_eq_ok (r.reading d) token e hd, hnext⟩

theorem retraces_copyRegex (fork : Fork) (opener : Char) : Retraces fork (copyRegex opener) where
  onward h := (copyRegex_ahead h).2
  abreast {r s d} habreast h hle := by
    obtain ⟨copied, hcopied, rfl⟩ := copyRegex_eq_ok h
    obtain ⟨e, hd, hnext⟩ := habreast.copyLiteral hcopied hle
    refine ⟨e, ?_, hnext⟩
    obtain ⟨cursor, output, current, upcoming, log⟩ := r
    simp only [copyRegex, reading, Cursor.copyRegex, hd]
    rfl

theorem retraces_shift (fork : Fork) : Retraces fork shift where
  onward h := (shift_ahead h).2
  abreast {r s d} habreast h hle := by
    rcases shift_cases h with ⟨hupcoming, rfl⟩ |
      ⟨quote, copied, hupcoming, hquote, hcopied, rfl⟩ | ⟨ch, hupcoming, hquote, rfl⟩
    · exact ⟨d, @shift_of_none (r.reading d) hupcoming, habreast⟩
    · obtain ⟨e, hd, hnext⟩ := habreast.copyLiteral hcopied hle
      refine ⟨e, ?_, hnext⟩
      rw [@shift_of_quote (r.reading d) quote hupcoming hquote]
      simp only [follow, reading, Cursor.copyString, hd]
    · exact ⟨d, @shift_of_not_quote (r.reading d) ch hupcoming hquote, habreast⟩

-- A regular expression is copied behind the same operator in both runs, or in neither.
theorem retraces_fetch (fork : Fork) : Retraces fork fetch where
  onward {r s} h := by
    obtain ⟨t, hread, hcases⟩ := fetch_cases h
    have hle := (retraces_readUpcoming fork).onward hread
    rcases hcases with ⟨opener, u, -, -, -, hcopy, hread'⟩ | ⟨rfl, -⟩
    · exact Nat.le_trans ((retraces_readUpcoming fork).onward hread')
        (Nat.le_trans ((retraces_copyRegex fork opener).onward hcopy) hle)
    · exact hle
  abreast {r s d} habreast h hle := by
    obtain ⟨t, hread, -⟩ := bind_eq_ok h
    rcases fetch_of_readUpcoming hread with
      ⟨opener, hopener, hslash, hintroduces, heq⟩ | ⟨heq, hdivides⟩
    · rw [heq] at h
      have hregex := (retraces_copyRegex fork opener).bind (retraces_readUpcoming fork)
      obtain ⟨e, hread', hmid⟩ :=
        (retraces_readUpcoming fork).abreast habreast hread (Nat.le_trans hle (hregex.onward h))
      obtain ⟨e', hregex', hlast⟩ := hregex.abreast hmid h hle
      refine ⟨e', ?_, hlast⟩
      rcases fetch_of_readUpcoming hread' with ⟨opener', hopener', -, -, heq'⟩ | ⟨-, hdivides⟩
      · cases hopener.symm.trans hopener'
        exact heq'.trans hregex'
      · rw [hdivides opener hopener hslash] at hintroduces
        cases hintroduces
    · rw [heq] at h
      cases h
      obtain ⟨e, hread', hmid⟩ := (retraces_readUpcoming fork).abreast habreast hread hle
      rcases fetch_of_readUpcoming hread' with
        ⟨opener, hopener, hslash, hintroduces, -⟩ | ⟨heq', -⟩
      · rw [hdivides opener hopener hslash] at hintroduces
        cases hintroduces
      · exact ⟨e, heq', hmid⟩

theorem write_reading (r : Run) (d : Cursor) (token : Char) :
    (r.reading d).write token = (r.write token).reading d := by
  rw [write, write, show (r.reading d).output = r.output from rfl]
  split <;> rfl

theorem retraces_step (fork : Fork) (current : Char) : Retraces fork (step · current) := by
  have hmove : Retraces fork fun r => r.shift >>= fetch :=
    (retraces_shift fork).bind (retraces_fetch fork)
  constructor
  · intro r s h
    cases haction : Action.choose current r.upcoming with
    | emit =>
      rw [← write_cursor r current]
      exact hmove.onward ((step_of_emit haction).symm.trans h)
    | advance => exact hmove.onward ((step_of_advance haction).symm.trans h)
    | fetch => exact (retraces_fetch fork).onward ((step_of_fetch haction).symm.trans h)
  · intro r s d habreast h hle
    cases haction : Action.choose current r.upcoming with
    | emit =>
      rw [@step_of_emit (r.reading d) current haction, write_reading]
      rw [step_of_emit haction] at h
      exact hmove.abreast (by rwa [write_cursor]) h hle
    | advance =>
      rw [@step_of_advance (r.reading d) current haction]
      rw [step_of_advance haction] at h
      exact hmove.abreast habreast h hle
    | fetch =>
      rw [@step_of_fetch (r.reading d) current haction]
      rw [step_of_fetch haction] at h
      exact (retraces_fetch fork).abreast habreast h hle

/-- The run over the other text passes through the same states, up to the fork. -/
theorem Head.retrace {text text' : String} {n : Nat} {r : Run}
    (hstart : (Cursor.ofText text).Abreast fork (Cursor.ofText text')) (h : Head text n r)
    (hle : fork.left.length ≤ r.cursor.rest.length) :
    ∃ d, Head text' n (r.reading d) ∧ r.cursor.Abreast fork d := by
  induction h with
  | first fetched =>
    obtain ⟨d, hfetched, habreast⟩ := (retraces_fetch fork).abreast hstart fetched hle
    exact ⟨d, .first hfetched, habreast⟩
  | @next n r s current head pending stepped ih =>
    have honward := (retraces_step fork current).onward stepped
    obtain ⟨d, hhead, habreast⟩ := ih (Nat.le_trans hle honward)
    obtain ⟨e, hstepped, hnext⟩ := (retraces_step fork current).abreast habreast stepped hle
    exact ⟨e, .next hhead pending hstepped, hnext⟩

end Run

end ScriptMinifier
