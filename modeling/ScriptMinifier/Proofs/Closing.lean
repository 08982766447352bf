import ScriptMinifier.Comment
import ScriptMinifier.Literal

/-!
What closes a literal or a comment. A split finds a delimiter exactly if the text has one in its
place; where it finds none, the text leaves the construct open.
-/

namespace ScriptMinifier

/-! ## 1. Literals -/

namespace Literal

/-- Behind an opening delimiter, `t` leaves a literal open: a body is followed by the end of the
text, by a backslash that has nothing to take, or by a line break that no backslash takes. -/
def Unclosed (close : Char) (t : List Char) : Prop :=
  ∃ body, Body close body ∧ (t = body ∨ t = body ++ ['\\'] ∨ ∃ u, t = body ++ '\n' :: u)

theorem body_of_split? {close : Char} {t body rest : List Char}
    (h : split? close t = some (body, rest)) : Body close body := by
  fun_induction split? close t generalizing body with
  | case1 => cases h
  | case2 t =>
    cases h
    exact .nil
  | case3 t => cases h
  | case4 => cases h
  | case5 escaped u hclose hnewline ih =>
    obtain ⟨⟨b, r⟩, hsplit, heq⟩ := Option.map_eq_some_iff.mp h
    cases heq
    exact .escape escaped (ih hsplit)
  | case6 ch t hclose hnewline hescape ih =>
    obtain ⟨⟨b, r⟩, hsplit, heq⟩ := Option.map_eq_some_iff.mp h
    cases heq
    exact .plain hclose hescape hnewline (ih hsplit)

/-! A split passes over a body, unit by unit, up to the delimiter or to what breaks it off. -/

theorem split?_close (close : Char) (t : List Char) :
    split? close (close :: t) = some ([], t) := by
  rw [split?.eq_def]
  exact if_pos rfl

theorem split?_newline {close : Char} (hclose : close ≠ '\n') (t : List Char) :
    split? close ('\n' :: t) = none := by
  rw [split?.eq_def]
  simp only [Ne.symm hclose, if_false, if_true]

theorem split?_escape {close : Char} (hclose : close ≠ '\\') (ch : Char) (t : List Char) :
    split? close ('\\' :: ch :: t) =
      (split? close t).map fun (body, rest) => ('\\' :: ch :: body, rest) := by
  rw [split?, if_neg (Ne.symm hclose), if_neg (by decide), if_pos rfl]

theorem split?_plain {close ch : Char} (hclose : ch ≠ close) (hescape : ch ≠ '\\')
    (hnewline : ch ≠ '\n') (t : List Char) :
    split? close (ch :: t) = (split? close t).map fun (body, rest) => (ch :: body, rest) := by
  rw [split?.eq_def]
  simp only [hclose, hescape, hnewline, if_false]

theorem split?_append {close : Char} {body : List Char} (hclose : close ≠ '\\')
    (h : Body close body) (t : List Char) :
    split? close (body ++ t) = (split? close t).map fun (b, rest) => (body ++ b, rest) := by
  induction h with
  | nil => simp
  | @plain ch body hne hescape hnewline _ ih =>
    rw [List.cons_append, split?_plain hne hescape hnewline, ih, Option.map_map]
    rfl
  | @escape ch body _ ih =>
    rw [List.cons_append, List.cons_append, split?_escape hclose, ih, Option.map_map]
    rfl

-- A body with its delimiter behind it is split off again.
theorem split?_of_body {close : Char} {body : List Char} (hclose : close ≠ '\\')
    (h : Body close body) (rest : List Char) :
    split? close (body ++ close :: rest) = some (body, rest) := by
  rw [split?_append hclose h, split?_close]
  simp

theorem unclosed_of_split? {close : Char} {t : List Char} (h : split? close t = none) :
    Unclosed close t := by
  fun_induction split? close t with
  | case1 => exact ⟨[], .nil, .inl rfl⟩
  | case2 t => cases h
  | case3 t => exact ⟨[], .nil, .inr (.inr ⟨t, rfl⟩)⟩
  | case4 => exact ⟨[], .nil, .inr (.inl rfl)⟩
  | case5 escaped u hclose hnewline ih =>
    obtain ⟨body, hbody, htext⟩ := ih (Option.map_eq_none_iff.mp h)
    refine ⟨'\\' :: escaped :: body, .escape escaped hbody, ?_⟩
    simpa using htext
  | case6 ch t hclose hnewline hescape ih =>
    obtain ⟨body, hbody, htext⟩ := ih (Option.map_eq_none_iff.mp h)
    refine ⟨ch :: body, .plain hclose hescape hnewline hbody, ?_⟩
    simpa using htext

-- A literal is left open exactly if there is nothing to split off.
theorem split?_eq_none_iff {close : Char} {t : List Char} (hescape : close ≠ '\\')
    (hnewline : close ≠ '\n') : split? close t = none ↔ Unclosed close t := by
  constructor
  · exact unclosed_of_split?
  · rintro ⟨body, hbody, rfl | rfl | ⟨u, rfl⟩⟩
    · rw [← List.append_nil t, split?_append hescape hbody, split?]
      rfl
    · rw [split?_append hescape hbody, split?, if_neg (Ne.symm hescape), if_neg (by decide),
        if_pos rfl]
      rfl
    · rw [split?_append hescape hbody, split?_newline hnewline]
      rfl

end Literal

/-! ## 2. Comments -/

namespace Comment

/-- A comment of either kind begins with `t`. -/
def Opens (t : List Char) : Prop := ['/', '/'] <+: t ∨ ['/', '*'] <+: t

theorem opens_cons_cons_iff {a b : Char} {t : List Char} :
    Opens (a :: b :: t) ↔ a = '/' ∧ (b = '/' ∨ b = '*') := by
  simp only [Opens, List.cons_prefix_cons, List.nil_prefix, and_true]
  constructor
  · rintro (⟨rfl, rfl⟩ | ⟨rfl, rfl⟩)
    · exact ⟨rfl, .inl rfl⟩
    · exact ⟨rfl, .inr rfl⟩
  · rintro ⟨rfl, rfl | rfl⟩
    · exact .inl ⟨rfl, rfl⟩
    · exact .inr ⟨rfl, rfl⟩

theorem opens_slash_iff {t : List Char} :
    Opens ('/' :: t) ↔ t.head? = some '/' ∨ t.head? = some '*' := by
  cases t with
  | nil => simp [Opens]
  | cons b t => simp [opens_cons_cons_iff]

theorem not_opens_singleton (a : Char) : ¬ Opens [a] := by
  simp [Opens]

theorem not_opens_of_ne {a : Char} (h : a ≠ '/') (t : List Char) : ¬ Opens (a :: t) := by
  simp [Opens, Ne.symm h]

/-! What stands in front of the first newline belongs to a comment that the end of its line ends. -/

theorem ne_newline_of_notMem {body : List Char} (h : '\n' ∉ body) :
    ∀ ch ∈ body, decide (ch ≠ '\n') = true := by
  intro ch hch
  apply decide_eq_true
  rintro rfl
  exact h hch

theorem takeWhile_append {body : List Char} (h : '\n' ∉ body) (t : List Char) :
    (body ++ t).takeWhile (· ≠ '\n') = body ++ t.takeWhile (· ≠ '\n') :=
  List.takeWhile_append_of_pos (ne_newline_of_notMem h)

theorem dropWhile_append {body : List Char} (h : '\n' ∉ body) (t : List Char) :
    (body ++ t).dropWhile (· ≠ '\n') = t.dropWhile (· ≠ '\n') :=
  List.dropWhile_append_of_pos (ne_newline_of_notMem h)

-- A comment ends at the first star that has a slash behind it.
theorem splitBlock?_eq_none_iff {t : List Char} :
    splitBlock? t = none ↔ ¬ ['*', '/'] <:+: t := by
  fun_induction splitBlock? t with
  | case1 => simp
  | case2 t => simpa using ⟨[], t, rfl⟩
  | case3 ch t hclose ih =>
    rw [Option.map_eq_none_iff, ih, List.infix_cons_iff, not_or]
    -- The two characters do not stand in front of `ch :: t`, or they would have been split off.
    have hfront : ¬ ['*', '/'] <+: ch :: t := by
      rintro ⟨u, hu⟩
      obtain ⟨rfl, rfl⟩ := List.cons.inj hu
      exact hclose u rfl rfl
    exact (and_iff_right hfront).symm

/-- The bodies of bracketed comments: nothing in them, nor the star behind them, makes an end. -/
def Body (body : List Char) : Prop := ¬ ['*', '/'] <:+: body ++ ['*']

theorem body_of_splitBlock? {t body rest : List Char} (h : splitBlock? t = some (body, rest)) :
    Body body := by
  fun_induction splitBlock? t generalizing body with
  | case1 => cases h
  | case2 t =>
    cases h
    exact fun hclose => absurd hclose.length_le (by decide)
  | case3 ch t hclose ih =>
    obtain ⟨⟨b, r⟩, hsplit, heq⟩ := Option.map_eq_some_iff.mp h
    cases heq
    rw [Body, List.cons_append, List.infix_cons_iff, not_or]
    refine ⟨?_, ih hsplit⟩
    rintro ⟨u, hu⟩
    obtain ⟨rfl, hb⟩ := List.cons.inj hu
    rw [eq_append_of_splitBlock? hsplit] at hclose
    cases b with
    | nil => cases hb
    | cons a b =>
      obtain rfl : '/' = a := (List.cons.inj hb).1
      exact hclose _ rfl rfl

-- A body with its end behind it is split off again.
theorem splitBlock?_of_body {body : List Char} (h : Body body) (rest : List Char) :
    splitBlock? (body ++ '*' :: '/' :: rest) = some (body, rest) := by
  induction body with
  | nil => rfl
  | cons ch body ih =>
    rw [Body, List.cons_append, List.infix_cons_iff, not_or] at h
    rw [List.cons_append, splitBlock?, ih h.2]
    · rfl
    · rintro u rfl hu
      cases body with
      | nil => cases hu
      | cons a body =>
        obtain rfl : a = '/' := (List.cons.inj hu).1
        exact h.1 ⟨_, rfl⟩

end Comment

end ScriptMinifier
