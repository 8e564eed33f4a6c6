import Abacus.Syntax.Lexeme

/-!
# What a first character starts

The first character of a lexeme decides which rule reads it, up to signs that a second character may
make longer. What each rule can answer is said here once: other proofs take the cases of
`Lexeme.starts` and do not open the rules.

**The law** (`Lexeme.starts`): every lexeme is blank, a numeral, a word, a comment, a quoted text, a
backslash with what follows it, one of the tokens of one or two other characters, or a character that
no rule reads.
-/

namespace Abacus

namespace Lexeme

/-- The tokens of one character, where no longer token begins with that character. -/
def singles : List (Char × TokenKind) :=
  [('\n', .newline), (';', .semicolon), (',', .comma),
    ('(', .opening .round), (')', .closing .round),
    ('[', .opening .square), (']', .closing .square),
    ('\x7b', .opening .curly), ('\x7d', .closing .curly),
    ('+', .operator .add), ('*', .operator .mul), ('/', .operator .div), ('%', .operator .rem),
    ('^', .operator .pow), ('&', .operator .and), ('|', .operator .or)]

/-- The other signs: a character, the second one that makes it longer, and the two tokens. -/
def doubles : List (Char × Char × TokenKind × TokenKind) :=
  [('-', '>', .arrow, .operator .sub), ('=', '=', .operator .eq, .assign),
    ('!', '=', .operator .notEq, .bang), ('<', '=', .operator .lessEq, .operator .less),
    ('>', '=', .operator .greaterEq, .operator .greater)]

/-- What a character starts, with what the rules answer. -/
inductive Starts (c : Char) (rest : List Char) : Prop
  | blanks : isBlank c → rule c rest = ((rest.takeWhile isBlank).length, .space) → Starts c rest
  | numeral : c.isDigit || (c == '.' && !(leadingDigits rest).isEmpty) →
    rule c rest = numeral (c :: rest) → Starts c rest
  | word : isNameStart c → rule c rest = ((rest.takeWhile isNameChar).length,
      .token (word (String.ofList (c :: rest.takeWhile isNameChar)))) → Starts c rest
  | comment : c = '#' → rule c rest = ((comment rest).length, .space) → Starts c rest
  | quoted : c = '"' → rule c rest = quoted rest → Starts c rest
  | slash : c = '\\' → rule c rest = continuation rest → Starts c rest
  | single {kind : TokenKind} : (c, kind) ∈ singles → rule c rest = (0, .token kind) →
    Starts c rest
  | double {second : Char} {two one : TokenKind} : (c, second, two, one) ∈ doubles →
    rule c rest = sign second two one rest → Starts c rest
  | nothing : c ≠ '"' → rule c rest = (0, .invalid (.unexpected c)) → Starts c rest

/-- **Every lexeme is one of these.** -/
theorem starts (c : Char) (rest : List Char) : Starts c rest := by
  by_cases hblank : isBlank c
  · exact .blanks hblank (if_pos hblank)
  by_cases hnumeral : c.isDigit || (c == '.' && !(leadingDigits rest).isEmpty)
  · refine .numeral hnumeral ?_
    unfold rule
    rw [if_neg hblank, if_pos hnumeral]
  by_cases hword : isNameStart c
  · refine .word hword ?_
    unfold rule
    rw [if_neg hblank, if_neg hnumeral, if_pos hword]
  -- what is left is the table of signs
  obtain ⟨read, hread⟩ : ∃ read, rule c rest = read := ⟨_, rfl⟩
  have hrule := hread
  unfold rule at hrule
  rw [if_neg hblank, if_neg hnumeral, if_neg hword] at hrule
  split at hrule <;> subst hrule <;> first
    | exact .comment rfl hread
    | exact .quoted rfl hread
    | exact .slash rfl hread
    | exact .single (by simp [singles]) hread
    | exact .double (by simp [doubles]) hread
    | exact .nothing (by assumption) hread

/-! ## Kinds of lexemes -/

variable {c : Char} {rest : List Char}

/-- A numeral is a number, or it has no value. -/
theorem numeral_kind (text : List Char) :
    (∃ value, (numeral text).2 = .token (.number value)) ∨
      (numeral text).2 = .invalid (.badNumber (String.ofList (Numeral.scan text).text)) := by
  unfold numeral
  cases hvalue : (Numeral.scan text).value? with
  | some value => exact .inl ⟨value, by simp [hvalue]⟩
  | none => exact .inr (by simp [hvalue])

/-- A quoted text is a token, or it has a character that it may not have, or no end. -/
theorem quoted_kind (rest : List Char) :
    (∃ body, (quoted rest).2 = .token (.quoted body)) ∨
      (∃ d, (quoted rest).2 = .invalid (.unexpected d)) ∨
      (quoted rest).2 = .invalid .incomplete := by
  unfold quoted
  dsimp only
  split
  · split
    · exact .inr (.inl ⟨_, rfl⟩)
    · exact .inl ⟨_, rfl⟩
  · exact .inr (.inr rfl)

/-- A sign is read as one of its two tokens. -/
theorem sign_kind (second : Char) (two one : TokenKind) (rest : List Char) :
    (sign second two one rest).2 = .token two ∨ (sign second two one rest).2 = .token one := by
  unfold sign
  split
  · exact .inl rfl
  · exact .inr rfl

/-- A word is a keyword or a name. -/
theorem word_kind (name : String) :
    (∃ keyword, word name = .keyword keyword) ∨ word name = .identifier name := by
  unfold word
  split
  · exact .inl ⟨_, rfl⟩
  · exact .inr rfl

/-- Only a quote starts a lexeme that is incomplete. -/
theorem of_rule_incomplete (h : (rule c rest).2 = .invalid .incomplete) : c = '"' := by
  cases starts c rest with
  | quoted hc => exact hc
  | numeral _ hrule =>
    rw [hrule] at h
    rcases numeral_kind (c :: rest) with ⟨value, hkind⟩ | hkind <;> simp [hkind] at h
  | slash _ hrule => simp [hrule, continuation] at h
  | @double second two one _ hrule =>
    rw [hrule] at h
    rcases sign_kind second two one rest with hkind | hkind <;> simp [hkind] at h
  | _ => simp_all

/-- Only a backslash joins lines, or fails to. -/
theorem of_rule_continuation {joined : Bool} (h : (rule c rest).2 = .continuation joined) :
    c = '\\' := by
  cases starts c rest with
  | slash hc => exact hc
  | numeral _ hrule =>
    rw [hrule] at h
    rcases numeral_kind (c :: rest) with ⟨value, hkind⟩ | hkind <;> simp [hkind] at h
  | quoted _ hrule =>
    rw [hrule] at h
    rcases quoted_kind rest with ⟨body, hkind⟩ | ⟨d, hkind⟩ | hkind <;> simp [hkind] at h
  | @double second two one _ hrule =>
    rw [hrule] at h
    rcases sign_kind second two one rest with hkind | hkind <;> simp [hkind] at h
  | _ => simp_all

/-- An opening bracket is one of three characters. -/
theorem of_rule_opening {shape : Bracket} (h : (rule c rest).2 = .token (.opening shape)) :
    c ∈ ['(', '[', '\x7b'] := by
  cases starts c rest with
  | single hmem hrule =>
    simp only [hrule, LexemeKind.token.injEq] at h
    subst h
    simp [singles] at hmem
    rcases hmem with ⟨rfl, -⟩ | ⟨rfl, -⟩ | ⟨rfl, -⟩ <;> simp
  | numeral _ hrule =>
    rw [hrule] at h
    rcases numeral_kind (c :: rest) with ⟨value, hkind⟩ | hkind <;> simp [hkind] at h
  | word _ hrule =>
    simp only [hrule, LexemeKind.token.injEq] at h
    generalize String.ofList (c :: rest.takeWhile isNameChar) = name at h
    rcases word_kind name with ⟨keyword, hword⟩ | hword <;> simp [hword] at h
  | quoted _ hrule =>
    rw [hrule] at h
    rcases quoted_kind rest with ⟨body, hkind⟩ | ⟨d, hkind⟩ | hkind <;> simp [hkind] at h
  | slash _ hrule => simp [hrule, continuation] at h
  | @double second two one hmem hrule =>
    rw [hrule] at h
    rcases sign_kind second two one rest with hkind | hkind <;>
      simp only [hkind, LexemeKind.token.injEq] at h <;> subst h <;> simp [doubles] at hmem
  | _ => simp_all

/-- No bracket is a quote. -/
theorem ne_quote_of_rule_opening {shape : Bracket} (h : (rule c rest).2 = .token (.opening shape)) :
    c ≠ '"' := by
  rintro rfl
  simpa using of_rule_opening h

end Lexeme

end Abacus
