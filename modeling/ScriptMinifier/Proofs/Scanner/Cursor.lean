import ScriptMinifier.Proofs.Scanner.Basic
import ScriptMinifier.Proofs.Token

/-!
Where a scan stops. Each call reads on in the text, whether it ends well or not, so that what is
left is always an end of the text: nothing is lost, and nothing is read twice.
-/

namespace ScriptMinifier.Cursor

variable {c d : Cursor}

/-! ## 1. Calls -/

-- A copy that finds no end stops behind the line break that breaks it off, or else has read all.
theorem copyBody_of_unclosed {close : Char} {out : String}
    (h : (c.copyBody close out).1 = none) :
    ∃ body, Literal.Body close body ∧
      (c.Reads (body ++ ['\n']) (c.copyBody close out).2 ∨
        (c.unread = body ∨ c.unread = body ++ ['\\']) ∧
          c.Reads c.unread (c.copyBody close out).2) := by
  fun_induction copyBody close c out with
  | case1 c out hread =>
    have hnil := unread_eq_nil_iff.mpr (read?_eq_none_iff.mp hread)
    refine ⟨[], .nil, .inr ⟨.inl hnil, ?_⟩⟩
    rw [hnil]
    exact Reads.refl c
  | case2 => cases h
  | case3 c out d hread hclose => exact ⟨[], .nil, .inl (reads_of_read? hread)⟩
  | case4 c out d hread' hread hclose =>
    have hreads := reads_of_read? hread
    have hnil := unread_eq_nil_iff.mpr (read?_eq_none_iff.mp hread')
    have hunread : c.unread = ['\\'] := by rw [hreads.unread, hnil, List.append_nil]
    refine ⟨[], .nil, .inr ⟨.inr hunread, ?_⟩⟩
    rw [hunread]
    exact hreads
  | case5 c out d escaped e hread' hread hclose _ ih =>
    have hreads := (reads_of_read? hread).trans (reads_of_read? hread')
    have hcons : c.unread = '\\' :: escaped :: e.unread := hreads.unread
    obtain ⟨body, hbody, htail⟩ := ih h
    refine ⟨'\\' :: escaped :: body, .escape escaped hbody, ?_⟩
    rw [hcons]
    exact htail.imp hreads.trans (And.imp (by simp) hreads.trans)
  | case6 c out ch d hread hclose hnewline hescape ih =>
    have hreads := reads_of_read? hread
    have hcons : c.unread = ch :: d.unread := hreads.unread
    obtain ⟨body, hbody, htail⟩ := ih h
    refine ⟨ch :: body, .plain hclose hescape hnewline hbody, ?_⟩
    rw [hcons]
    exact htail.imp hreads.trans (And.imp (by simp) hreads.trans)

theorem copyLiteral_of_error {k : Construct} {close : Char} {out : String} {fault : Fault}
    (h : (c.copyLiteral k close out).outcome = .error fault) :
    fault = ⟨k, c.last⟩ ∧ (c.copyBody close out).1 = none ∧
      (c.copyLiteral k close out).cursor = (c.copyBody close out).2 := by
  unfold copyLiteral at h ⊢
  split at h
  · cases h
  · rename_i d hcopy
    cases h
    simp [hcopy]

theorem exists_reads_copyLiteral (k : Construct) (close : Char) (c : Cursor) (out : String) :
    ∃ t, c.Reads t (c.copyLiteral k close out).cursor := by
  cases hcopy : (c.copyLiteral k close out).outcome with
  | ok copied =>
    obtain ⟨body, -, -, hreads⟩ := split?_of_copyLiteral hcopy
    exact ⟨_, hreads⟩
  | error fault =>
    obtain ⟨-, hnone, hcursor⟩ := copyLiteral_of_error hcopy
    rw [hcursor]
    obtain ⟨body, -, hreads | ⟨-, hreads⟩⟩ := copyBody_of_unclosed hnone
    · exact ⟨_, hreads⟩
    · exact ⟨_, hreads⟩

/-! ## 2. Rows of calls -/

theorem exists_reads_of_reached {text : String} (h : scanner.Reached text c) :
    ∃ t, (ofText text).Reads t c := by
  induction h with
  | start => exact ⟨[], Reads.refl _⟩
  | @token c _ ih =>
    obtain ⟨t, ht⟩ := ih
    obtain ⟨u, hu⟩ := c.token_spec.1
    exact ⟨t ++ u, ht.trans hu⟩
  | @copy c _ kind out ih =>
    obtain ⟨t, ht⟩ := ih
    obtain ⟨u, hu⟩ := exists_reads_copyLiteral kind.construct kind.close c
      (String.ofList (out.toList ++ kind.opening))
    rw [← copy_eq] at hu
    exact ⟨t ++ u, ht.trans hu⟩

/-- Whatever was called, the cursor stands in the text where its place says. -/
theorem exists_place_of_reached {text : String} (h : scanner.Reached text c) :
    ∃ before, LineBreak.normalize text.toList = before ++ c.unread ∧
      c.next = LineBreak.place text.toList before.length := by
  obtain ⟨before, hreads⟩ := exists_reads_of_reached h
  have htext : LineBreak.normalize text.toList = before ++ c.unread := hreads.unread
  refine ⟨before, htext, ?_⟩
  rw [LineBreak.place_eq_advance (by simp [htext]), htext, List.take_left]
  exact hreads.next

end ScriptMinifier.Cursor
