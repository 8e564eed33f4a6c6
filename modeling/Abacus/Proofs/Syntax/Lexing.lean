import Abacus.Proofs.Syntax.Plain

/-!
# What a printed token is read as

A token is read as long as the characters allow, so whether it is read as it was printed depends on
what follows it. In a printed expression that is a delimiter, which goes on no word and no numeral.

**The laws.** Before a delimiter a name is read as a name (`lexes_name`), the digits of an integer as
that integer (`lexes_integer`) and a text in quotes as that text (`lexes_quoted`).
-/

namespace Abacus

namespace Lexeme

/-- The characters that follow names, numerals and keywords in printed expressions. -/
def delimiters : List Char := [' ', ',', ';', '(', ')', ']', '\x7d', '|']

/-- The text is over or goes on with a delimiter. -/
def Delimited (rest : List Char) : Prop := ∀ c, rest.head? = some c → c ∈ delimiters

theorem delimited_nil : Delimited [] := fun _ h => nomatch h

/-- A delimiter ends the word or the number before it. -/
theorem delimited_cons {c : Char} (h : c ∈ delimiters) (rest : List Char) : Delimited (c :: rest) := by
  intro d hd
  cases hd
  exact h

/-- So does a closing bracket. -/
theorem delimited_closing (b : Bracket) (rest : List Char) :
    Delimited (b.closing.toList ++ rest) := by
  cases b <;> exact delimited_cons (by decide) rest

/-- And an opening round bracket. -/
theorem delimited_round (rest : List Char) : Delimited (Bracket.round.opening.toList ++ rest) :=
  delimited_cons (by decide) rest

/-- Before this rest the text is read as one token. -/
def Lexes (text : List Char) (kind : TokenKind) (rest : List Char) : Prop :=
  ∃ c more, text = c :: more ∧ rule c (more ++ rest) = (more.length, .token kind)

/-- A run of characters of a class ends where a delimiter outside the class follows. -/
theorem takeWhile_delimited {p : Char → Bool} {body rest : List Char} (hp : delimiters.any p = false)
    (hbody : ∀ c ∈ body, p c) (hrest : Delimited rest) : (body ++ rest).takeWhile p = body := by
  have hstop : rest.takeWhile p = [] := by
    cases rest with
    | nil => rfl
    | cons c more => exact List.takeWhile_cons_of_neg (List.any_eq_false.mp hp c (hrest c rfl))
  rw [List.takeWhile_append_of_pos hbody, hstop, List.append_nil]

/-! ## Words -/

/-- The blanks that are dropped between tokens. -/
def blanks : List Char := [' ', '\t', '\r', '\x0c']

/-- No character of a class that holds no blank is a blank. -/
theorem not_isBlank {p : Char → Bool} {c : Char} (hp : blanks.any p = false) (h : p c) :
    isBlank c = false := by
  refine Bool.eq_false_iff.mpr fun hb => ?_
  have hc : c ∈ blanks := by
    simpa [isBlank, blanks, or_assoc] using hb
  exact List.any_eq_false.mp hp c hc h

/-- No name begins with a digit. -/
theorem not_isDigit_of_isNameStart {c : Char} (h : isNameStart c) : c.isDigit = false := by
  refine Bool.eq_false_iff.mpr fun hd => ?_
  rw [isNameStart, Bool.or_eq_true, beq_iff_eq] at h
  rcases h with h | rfl
  · have hletter : c.isAlpha = (decide (c.val ≥ 'A'.val ∧ c.val ≤ 'Z'.val) ||
        (decide (c.val ≥ 'a'.val) && decide (c.val ≤ 'z'.val))) := rfl
    simp only [hletter, Char.isDigit, Bool.or_eq_true, Bool.and_eq_true, decide_eq_true_eq,
      UInt32.le_iff_toNat_le, ge_iff_le] at h hd
    have hA : 'A'.val.toNat = 65 := rfl
    have ha : 'a'.val.toNat = 97 := rfl
    have h9 : '9'.val.toNat = 57 := rfl
    omega
  · exact absurd hd (by decide)

/-- A word is read up to the delimiter. -/
theorem rule_word {c : Char} {more rest : List Char} (hc : isNameStart c)
    (hmore : ∀ d ∈ more, isNameChar d) (hrest : Delimited rest) :
    rule c (more ++ rest) = (more.length, .token (word (String.ofList (c :: more)))) := by
  have hpoint : (c == '.') = false := by
    refine Bool.eq_false_iff.mpr fun h => ?_
    obtain rfl := beq_iff_eq.mp h
    exact absurd hc (by decide)
  unfold rule
  rw [not_isBlank (p := isNameStart) rfl hc, not_isDigit_of_isNameStart hc, hpoint, hc]
  simp only [Bool.false_eq_true, if_false, Bool.false_or, Bool.false_and, if_true]
  rw [takeWhile_delimited rfl hmore hrest]

/-- A name is read as a name. -/
theorem lexes_name {name : String} (h : IsName name) {rest : List Char} (hrest : Delimited rest) :
    Lexes name.toList (.identifier name) rest := by
  obtain ⟨c, more, hname, hc, hmore⟩ := h.word
  have hword : word name = .identifier name := by
    unfold word
    have : Keyword.all.find? (·.text == name) = none := by
      rw [List.find?_eq_none]
      intro k hk
      simpa using h.free k hk
    rw [this]
  refine ⟨c, more, hname, ?_⟩
  rw [rule_word hc hmore hrest, ← hname, String.ofList_toList, hword]

/-- A word of the language is read as that word. -/
theorem lexes_keyword (k : Keyword) {rest : List Char} (hrest : Delimited rest) :
    Lexes k.text.toList (.keyword k) rest := by
  cases k <;> exact ⟨_, _, rfl, rule_word (by decide) (List.all_eq_true.mp rfl) hrest⟩

/-! ## Numerals -/

/-- Digits before a delimiter are a number without point and exponent. -/
theorem scan_digits {digits rest : List Char} (hdigits : ∀ c ∈ digits, c.isDigit)
    (hrest : Delimited rest) : Numeral.scan (digits ++ rest) = ⟨digits, [], none, false⟩ := by
  have hpoint : pointDigits rest = [] := by
    unfold pointDigits
    split
    · next more => exact absurd (hrest '.' rfl) (by decide)
    · rfl
  have hexponent : Exponent.scan rest = none := by
    unfold Exponent.scan
    split
    · next more => exact absurd (hrest 'e' rfl) (by decide)
    · next more _ => exact absurd (hrest 'e' rfl) (by decide)
    · rfl
  have himaginary : (rest.head? == some 'i') = false := by
    refine Bool.eq_false_iff.mpr fun h => ?_
    exact absurd (hrest 'i' (beq_iff_eq.mp h)) (by decide)
  unfold Numeral.scan leadingDigits
  simp only [takeWhile_delimited (p := Char.isDigit) rfl hdigits hrest, List.drop_left,
    hpoint, pointed, List.isEmpty_nil, if_true, List.length_nil, List.drop_zero, hexponent,
    Option.map_none, Option.getD_none, himaginary]

/-- A number of 64 bits fits into 64 bits. -/
theorem fit?_toInt (n : Int64) : Number.fit? n.toInt = some n := by
  rw [Number.fit?, if_pos ⟨Int64.minValue_le_toInt n, Int64.toInt_le n⟩, Int64.ofInt_toInt]

/-- An integer that is not negative is printed by its digits. -/
theorem exists_digits {n : Int64} (hn : 0 ≤ n.toInt) :
    ∃ c more, (Number.integer n).text.toList = c :: more ∧ (∀ d ∈ c :: more, d.isDigit) ∧
      Numeral.digitsValue (c :: more) = n.toInt := by
  obtain ⟨k, hk⟩ := Int.eq_ofNat_of_zero_le hn
  have htext : (Number.integer n).text.toList = Nat.toDigits 10 k := by
    rw [Number.text, hk]
    exact Nat.toList_repr
  have hvalue : Numeral.digitsValue (Nat.toDigits 10 k) = k := Nat.ofDigitChars_ten_toDigits
  have hdigits : ∀ c ∈ Nat.toDigits 10 k, c.isDigit :=
    fun c hc => Nat.isDigit_of_mem_toDigits (by decide) (by decide) hc
  obtain ⟨c, more, hcons⟩ := List.exists_cons_of_ne_nil (Nat.toDigits_ne_nil (n := k) (b := 10))
  rw [hcons] at htext hvalue hdigits
  exact ⟨c, more, htext, hdigits, by rw [hvalue, hk]⟩

/-- **Before a delimiter the digits of an integer are read as that integer.** -/
theorem lexes_integer {n : Int64} (hn : 0 ≤ n.toInt) {rest : List Char} (hrest : Delimited rest) :
    Lexes (Number.integer n).text.toList (.number (.integer n)) rest := by
  obtain ⟨c, more, htext, hdigits, hvalue⟩ := exists_digits hn
  have hc : c.isDigit := hdigits c List.mem_cons_self
  refine ⟨c, more, htext, ?_⟩
  unfold rule
  rw [not_isBlank (p := Char.isDigit) rfl hc, hc]
  simp only [Bool.false_eq_true, if_false, Bool.true_or, if_true]
  rw [← List.cons_append, numeral, scan_digits hdigits hrest]
  simp [Numeral.text, pointed, Numeral.value?, Numeral.scaledValue?, hvalue, fit?_toInt]

/-! ## Quoted texts -/

/-- **A text in quotes is read as that text.** -/
theorem lexes_quoted {body : String} (h : IsQuotable body) (rest : List Char) :
    Lexes (Literal.quoted body).text.toList (.quoted body) rest := by
  have hbody : ∀ c ∈ body.toList, (c != '"' && c != '\n') = true := by
    intro c hc
    obtain ⟨-, hquote, hline⟩ := h c hc
    simp [hquote, hline]
  have htake : (body.toList ++ '"' :: rest).takeWhile (fun c => c != '"' && c != '\n') =
      body.toList := by
    rw [List.takeWhile_append_of_pos hbody]
    simp
  have hfind : body.toList.find? (fun c => !isAscii c) = none := by
    rw [List.find?_eq_none]
    intro c hc
    simp [(h c hc).1]
  refine ⟨'"', body.toList ++ ['"'], by simp [Literal.text], ?_⟩
  show quoted _ = _
  rw [List.append_assoc, List.singleton_append, quoted, htake, List.drop_left, hfind]
  simp

/-! ## Signs -/

/-- Before a blank every operator is read as itself. -/
theorem lexes_operator (op : BinaryOp) (rest : List Char) :
    Lexes op.symbol.toList (.operator op) (' ' :: rest) := by
  cases op <;> exact ⟨_, _, rfl, rfl⟩

/-- A prefix operator is read as itself unless the next character makes it another sign. -/
theorem lexes_unary (op : UnaryOp) {rest : List Char} (harrow : rest.head? ≠ some '>')
    (hequals : rest.head? ≠ some '=') : Lexes op.symbol.toList op.kind rest := by
  cases op
  · refine ⟨'-', [], rfl, ?_⟩
    show sign _ _ _ _ = _
    rw [sign, if_neg (by simpa using harrow)]
    rfl
  · refine ⟨'!', [], rfl, ?_⟩
    show sign _ _ _ _ = _
    rw [sign, if_neg (by simpa using hequals)]
    rfl

/-- A sign `=` before a space is no comparison. -/
theorem lexes_assign (rest : List Char) : Lexes ['='] .assign (' ' :: rest) :=
  ⟨'=', [], rfl, rfl⟩

theorem lexes_bar (rest : List Char) : Lexes ['|'] (.operator .or) rest := ⟨'|', [], rfl, rfl⟩

theorem lexes_comma (rest : List Char) : Lexes [','] .comma rest := ⟨',', [], rfl, rfl⟩

theorem lexes_semicolon (rest : List Char) : Lexes [';'] .semicolon rest := ⟨';', [], rfl, rfl⟩

/-- An opening bracket is a token. -/
theorem lexes_opening (b : Bracket) (rest : List Char) :
    Lexes b.opening.toList (.opening b) rest := by
  cases b <;> exact ⟨_, _, rfl, rfl⟩

/-- A closing bracket is a token. -/
theorem lexes_closing (b : Bracket) (rest : List Char) :
    Lexes b.closing.toList (.closing b) rest := by
  cases b <;> exact ⟨_, _, rfl, rfl⟩

end Lexeme

end Abacus
