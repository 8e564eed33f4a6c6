import Abacus.Proofs.Syntax.Incomplete

/-!
# What stands at a lexical fault

Five things make a text fail: a character that no rule reads, a numeral without a value, a quoted
text without an end or with a character that it may not have, a backslash that joins no lines, and
brackets that are open at the end. Each has a way of its own to say where it is.

**The law** (`Statement.fault_at_culprit`): the position of a fault is that of a character of the
text, which the text before it leads to; a numeral without a value begins there, and so does what is
incomplete; and the unexpected character is the one that stands there, but for a quoted text. There
it is the first character between the quotes that may not be, and the position is that of the quote
before it (`Statement.quoted_not_at_culprit`).
-/

namespace Abacus

/-! ## Faults of lexemes -/

/-- How the text from the position of a fault begins: with a character, and the others after it. -/
def LexFault.StandsAt : LexFault → Char → List Char → Prop
  | .incomplete, c, _ => c ∈ ['(', '[', '\x7b', '"', '\\']
  | .unexpected d, c, rest =>
    c ≠ '"' ∧ c = d ∨
      -- the position is that of the quote, and the character is inside
      c = '"' ∧ ∃ body more, rest = body ++ '"' :: more ∧ Lexeme.InLine body ∧
        body.find? (fun d => !Lexeme.isAscii d) = some d
  | .badNumber text, c, rest => text.toList ≠ [] ∧ text.toList <+: c :: rest

/-- What begins as a numeral has a character that belongs to it. -/
theorem Numeral.scan_text_ne_nil {c : Char} {rest : List Char}
    (h : c.isDigit || (c == '.' && !(leadingDigits rest).isEmpty)) :
    (Numeral.scan (c :: rest)).text ≠ [] := by
  by_cases hdigit : c.isDigit
  · simp [Numeral.scan, Numeral.text, leadingDigits, hdigit]
  · simp only [hdigit, Bool.false_or, Bool.and_eq_true, beq_iff_eq, Bool.not_eq_true',
      List.isEmpty_eq_false_iff] at h
    obtain ⟨rfl, hfraction⟩ := h
    have hwhole : leadingDigits ('.' :: rest) = [] := by simp [leadingDigits, hdigit]
    simp [Numeral.scan, Numeral.text, hwhole, pointDigits, pointed, hfraction]

namespace Lexeme

/-- A quoted text has an unexpected character only if it is closed. -/
theorem of_quoted_unexpected {rest : List Char} {d : Char}
    (h : (quoted rest).2 = .invalid (.unexpected d)) :
    ∃ body more, rest = body ++ '"' :: more ∧ InLine body ∧
      body.find? (fun d => !isAscii d) = some d := by
  have hend : (quoted rest).2 ≠ .invalid .incomplete := by simp [h]
  obtain ⟨body, more, rfl, hbody⟩ := exists_quote hend
  refine ⟨body, more, rfl, hbody, ?_⟩
  rw [quoted_append_quote hbody] at h
  cases hfind : body.find? fun d => !isAscii d with
  | none => simp [hfind] at h
  | some found => simpa [hfind] using h

/-- **What is no token begins with its culprit**, or with the quote before it. -/
theorem standsAt_of_rule {c : Char} {rest : List Char} {fault : LexFault}
    (h : (rule c rest).2 = .invalid fault) : fault.StandsAt c rest := by
  cases starts c rest with
  | numeral hstarts hrule =>
    -- a numeral is read whole, and only then found to have no value
    rw [hrule] at h
    rcases numeral_kind (c :: rest) with ⟨value, hkind⟩ | hkind
    · simp [hkind] at h
    · rw [hkind] at h
      cases h
      simp only [LexFault.StandsAt, String.toList_ofList]
      exact ⟨Numeral.scan_text_ne_nil hstarts, _, Numeral.scan_text_append (c :: rest)⟩
  | quoted hc hrule =>
    subst hc
    rw [hrule] at h
    rcases quoted_kind rest with ⟨body, hkind⟩ | ⟨d, hkind⟩ | hkind
    · simp [hkind] at h
    · rw [hkind] at h
      cases h
      exact .inr ⟨rfl, of_quoted_unexpected hkind⟩
    · rw [hkind] at h
      cases h
      simp [LexFault.StandsAt]
  | @double second two one _ hrule =>
    rw [hrule] at h
    rcases sign_kind second two one rest with hkind | hkind <;> simp [hkind] at h
  | slash _ hrule => simp [hrule, continuation] at h
  | nothing hquote hrule =>
    rw [hrule] at h
    cases h
    exact .inl ⟨hquote, rfl⟩
  | _ => simp_all

end Lexeme

namespace Statement

open Lexeme

/-! ## Faults of statements -/

/-- A position is that of a place of a text, and there the text is as it should be. -/
def Stands (text : List Char) (origin : Position) (culprit : Char → List Char → Prop)
    (p : Position) : Prop :=
  ∃ before c rest, text = before ++ c :: rest ∧ p = origin.advance before ∧
    p.offset = origin.offset + byteLength before ∧ culprit c rest

/-- A lexeme stands where reading those before it ends. -/
theorem stands_of_stream {text : List Char} {origin : Position} {ys zs : List Lexeme} {x : Lexeme}
    {culprit : Char → List Char → Prop} (h : stream text = ys ++ x :: zs)
    (hculprit : ∀ c rest, Lexeme.first c rest = x → culprit c rest) :
    Stands text origin culprit (origin.advance (ys.flatMap Lexeme.text)) := by
  obtain ⟨c, rest, htext, hx, -⟩ := exists_of_stream h
  exact ⟨_, c, rest, htext, rfl, Position.offset_advance .., hculprit c rest hx⟩

/-- **A lexical fault stands at its culprit**, or at the quote before it. -/
theorem fault_at_culprit {text : List Char} {origin : Position} {e : LexError}
    (h : first text origin = .error e) : Stands text origin e.fault.StandsAt e.position := by
  rw [first_eq] at h
  obtain ⟨before, rest, p, begun, opened, hstream, hpasses, hend⟩ := exists_passes_of_error h
  rcases hend with ⟨rfl, shape, outer, rfl⟩ | ⟨x, after, rfl, hreact, hposition⟩
  · -- the innermost bracket that is open at the end
    rw [List.append_nil] at hstream
    have hbrackets : ∀ bracket ∈ (shape, e.position) :: outer,
        Stands text origin LexFault.incomplete.StandsAt bracket.2 := by
      refine hpasses.placed (fun _ hb => nomatch hb) ?_
      intro ys x zs shape hsplit hkind
      refine stands_of_stream (hstream.trans hsplit) ?_
      rintro c rest rfl
      have hc : c ∈ ['(', '[', '\x7b'] := of_rule_opening hkind
      exact List.mem_append_left ['"', '\\'] hc
    rw [hstream, hpasses.ofLexemes_end 0 0] at h
    injection h with he
    have hfault : e.fault = .incomplete := he ▸ rfl
    rw [hfault]
    exact hbrackets _ List.mem_cons_self
  · rw [hposition, hpasses.position]
    refine stands_of_stream hstream ?_
    rintro c rest rfl
    rcases of_react_fail hreact with hkind | ⟨hkind, hfault⟩
    · exact standsAt_of_rule hkind
    · obtain rfl := of_rule_continuation hkind
      rw [hfault]
      split <;> simp [LexFault.StandsAt]

/-- A bracket that is open in the second statement of a text. -/
theorem open_call_at_culprit :
    first "\nf(a".toList ⟨2, 1, 3⟩ = .error ⟨.incomplete, ⟨4, 2, 2⟩⟩ ∧
      Stands "\nf(a".toList ⟨2, 1, 3⟩ LexFault.incomplete.StandsAt ⟨4, 2, 2⟩ := by
  have h : first "\nf(a".toList ⟨2, 1, 3⟩ = .error ⟨.incomplete, ⟨4, 2, 2⟩⟩ := by decide +kernel
  exact ⟨h, fault_at_culprit h⟩

/-- A character that may not be in a quoted text is said to stand where the quote is. -/
theorem quoted_not_at_culprit :
    first "\"é\"".toList .start = .error ⟨.unexpected 'é', .start⟩ ∧
      ¬ Stands "\"é\"".toList .start (fun c _ => c = 'é') .start := by
  refine ⟨by decide +kernel, ?_⟩
  rintro ⟨before, c, rest, htext, -, hoffset, rfl⟩
  cases before with
  | nil => cases htext
  | cons d before =>
    have hsize := d.utf8Size_pos
    simp only [byteLength_cons] at hoffset
    omega

end Statement

end Abacus
