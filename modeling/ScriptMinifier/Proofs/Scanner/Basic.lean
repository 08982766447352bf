import ScriptMinifier.Cursor.Lookahead.Scan
import ScriptMinifier.Proofs.Answers

/-!
Scanners. A scanner is asked for tokens and for copies of literals, in any order, and goes on from
wherever the last call has left it, also if that met a fault. If two scanners answer every call
alike, then to each state that the one reaches there is a state of the other that is like it.
-/

namespace ScriptMinifier

/-! ## 1. Kinds of literals -/

namespace Literal

inductive Kind where
  | string (quote : Char)
  | regex

namespace Kind

def close : Kind → Char
  | string quote => quote
  | regex => '/'

def construct : Kind → Construct
  | string _ => .string
  | regex => .regex

/-- What a copy writes in front of the body. The slash that opens a regular expression is already
written when the copy begins. -/
def opening : Kind → List Char
  | string quote => [quote]
  | regex => []

end Kind

end Literal

def Cursor.copy (kind : Literal.Kind) (out : String) (c : Cursor) : Scan String :=
  match kind with
  | .string quote => c.copyString quote out
  | .regex => c.copyRegex out

def Lookahead.copy (kind : Literal.Kind) (out : String) (s : Lookahead) :
    Except Fault String × Lookahead :=
  match kind with
  | .string quote => s.copyString quote out
  | .regex => s.copyRegex out

theorem Cursor.copy_eq (kind : Literal.Kind) (out : String) (c : Cursor) :
    c.copy kind out =
      c.copyLiteral kind.construct kind.close (String.ofList (out.toList ++ kind.opening)) := by
  cases kind with
  | string quote =>
    rw [copy, copyString, ← String.ofList_toList (s := out.push quote), String.toList_push]
    rfl
  | regex =>
    rw [copy, copyRegex, Literal.Kind.opening, List.append_nil, String.ofList_toList]
    rfl

theorem Lookahead.copy_eq (kind : Literal.Kind) (out : String) (s : Lookahead) :
    s.copy kind out =
      s.copyLiteral kind.construct kind.close (String.ofList (out.toList ++ kind.opening)) := by
  cases kind with
  | string quote =>
    rw [copy, copyString, ← String.ofList_toList (s := out.push quote), String.toList_push]
    rfl
  | regex =>
    rw [copy, copyRegex, Literal.Kind.opening, List.append_nil, String.ofList_toList]
    rfl

/-! ## 2. Scanners and the states that they reach -/

/-- A way to scan texts. -/
structure Scanner (σ : Type) where
  ofText : String → σ
  token : σ → Except Fault (Option Char) × σ
  copy : Literal.Kind → String → σ → Except Fault String × σ
  /-- The character that is read next, as it is. -/
  verbatim : σ → Option Char
  /-- The place of the character that was read last. -/
  last : σ → Position
  /-- The text that is still to be read, with its line breaks normalised. -/
  unread : σ → List Char

def Cursor.scanner : Scanner Cursor where
  ofText := .ofText
  token c := (c.token.outcome, c.token.cursor)
  copy kind out c := ((c.copy kind out).outcome, (c.copy kind out).cursor)
  verbatim c := (c.ask .verbatim).1
  last := last
  unread := unread

def Lookahead.scanner : Scanner Lookahead where
  ofText := .ofText
  token := token
  copy := copy
  verbatim s := (s.ask .verbatim).1
  last := last
  unread := unread

namespace Scanner

variable {σ τ : Type}

/-- Some row of calls leads from the beginning of `text` to this state. Any of them may have met a
fault. -/
inductive Reached (S : Scanner σ) (text : String) : σ → Prop where
  | start : Reached S text (S.ofText text)
  | token {s : σ} (reached : Reached S text s) : Reached S text (S.token s).2
  | copy {s : σ} (reached : Reached S text s) (kind : Literal.Kind) (out : String) :
      Reached S text (S.copy kind out s).2

/-- Two scanners answer every call alike in states that are `Alike`, and are left in such. -/
structure Simulates (S : Scanner σ) (T : Scanner τ) (Alike : σ → τ → Prop) : Prop where
  ofText : ∀ text, Alike (S.ofText text) (T.ofText text)
  verbatim : ∀ {s t}, Alike s t → S.verbatim s = T.verbatim t
  last : ∀ {s t}, Alike s t → S.last s = T.last t
  unread : ∀ {s t}, Alike s t → S.unread s = T.unread t
  token : ∀ {s t}, Alike s t →
    (S.token s).1 = (T.token t).1 ∧ Alike (S.token s).2 (T.token t).2
  copy : ∀ {s t} (kind : Literal.Kind) (out : String), Alike s t →
    (S.copy kind out s).1 = (T.copy kind out t).1 ∧
      Alike (S.copy kind out s).2 (T.copy kind out t).2

theorem Simulates.exists_reached {S : Scanner σ} {T : Scanner τ} {Alike : σ → τ → Prop}
    (h : S.Simulates T Alike) {text : String} {s : σ} (hs : S.Reached text s) :
    ∃ t, T.Reached text t ∧ Alike s t := by
  induction hs with
  | start => exact ⟨_, .start, h.ofText text⟩
  | token _ ih =>
    obtain ⟨t, ht, halike⟩ := ih
    exact ⟨_, .token ht, (h.token halike).2⟩
  | copy _ kind out ih =>
    obtain ⟨t, ht, halike⟩ := ih
    exact ⟨_, .copy ht kind out, (h.copy kind out halike).2⟩

end Scanner

end ScriptMinifier
