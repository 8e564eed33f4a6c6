import Abacus.Syntax.Lexeme

/-!
# Lexemes and what follows them

No blanks, word, sign or numeral goes on over a line feed, a quote or a backslash. So the lexemes in
front of one of these are what they are whatever stands behind it (`Lexeme.stream_before`). A line
feed ends every lexeme, except that a backslash at the end of a line joins it to the next one, and
lexemes may be read line by line.

**The law** (`Lexeme.stream_append_lineFeed`): if every backslash of a text joins two of its lines,
then the lexemes of the text, a line feed and another text are those of the first text, the line
feed, and those of the other text.
-/

namespace Abacus

/-- The characters that blanks, words, signs and numerals end before. -/
def isBorder (c : Char) : Bool := c == '\n' || c == '"' || c == '\\'

/-- The characters that words, signs and numerals end before: the borders, and blanks. -/
def edges : List Char := ['\n', '"', '\\', ' ', '\t', '\r', '\x0c']

/-- What none of the border characters is, a border character is not. -/
theorem not_of_isBorder {p : Char → Bool} {b : Char} (hb : isBorder b) (hline : p '\n' = false)
    (hquote : p '"' = false) (hslash : p '\\' = false) : p b = false := by
  simp only [isBorder, Bool.or_eq_true, beq_iff_eq] at hb
  rcases hb with (rfl | rfl) | rfl
  · exact hline
  · exact hquote
  · exact hslash

/-- A border is one of the edges. -/
theorem mem_edges_of_isBorder {b : Char} (hb : isBorder b) : b ∈ edges := by
  simp only [isBorder, Bool.or_eq_true, beq_iff_eq] at hb
  rcases hb with (rfl | rfl) | rfl <;> decide

/-- What no edge is, an edge is not. -/
theorem not_of_mem_edges {p : Char → Bool} {b : Char} (hb : b ∈ edges)
    (hp : (edges.all fun c => !p c) = true) : p b = false := by
  simpa using List.all_eq_true.mp hp b hb

/-- A character that is no edge is not this one. -/
theorem ne_of_mem_edges {b c : Char} (hb : b ∈ edges) (hc : edges.contains c = false) : c ≠ b := by
  rintro rfl
  simp [hb] at hc

variable (text more : List Char) {b : Char}

/-! ## Runs of characters -/

/-- A run of characters of a class ends before a character that is not of the class. -/
theorem takeWhile_before {p : Char → Bool} (hp : p b = false) :
    (text ++ b :: more).takeWhile p = text.takeWhile p := by
  induction text with
  | nil => simp [hp]
  | cons c rest ih => simp [List.takeWhile_cons, ih]

/-- What a leading run leaves is the same before whatever follows. -/
theorem drop_takeWhile_before (p : Char → Bool) :
    (text ++ b :: more).drop (text.takeWhile p).length =
      text.drop (text.takeWhile p).length ++ b :: more :=
  List.drop_append_of_le_length (text.takeWhile_prefix p).length_le

/-- What a text begins with is what it begins with before another character. -/
theorem head?_before {c : Char} (hc : c ≠ b) :
    ((text ++ b :: more).head? == some c) = (text.head? == some c) := by
  cases text with
  | nil => simpa using hc.symm
  | cons d rest => rfl

/-- A run of characters that ends within a front part of the text depends on that part only. -/
theorem takeWhile_within {p : Char → Bool} {front tail : List Char} (tail' : List Char)
    (h : ((front ++ tail).takeWhile p).length < front.length) :
    (front ++ tail').takeWhile p = (front ++ tail).takeWhile p := by
  rw [List.takeWhile_append] at h ⊢
  rw [List.takeWhile_append]
  by_cases hall : (front.takeWhile p).length = front.length
  · rw [if_pos hall, List.length_append] at h
    omega
  · rw [if_neg hall, if_neg hall]

/-- The character at a place within a front part of the text. -/
theorem head?_drop_within {front : List Char} (tail tail' : List Char) {count : Nat}
    (h : count < front.length) :
    ((front ++ tail').drop count).head? = ((front ++ tail).drop count).head? := by
  rw [List.head?_drop, List.head?_drop, List.getElem?_append_left h, List.getElem?_append_left h]

/-! ## Numerals -/

section Numerals

variable (hb : b ∈ edges)

include hb

/-- The digits in front do not depend on what follows an edge. -/
theorem leadingDigits_before : leadingDigits (text ++ b :: more) = leadingDigits text :=
  takeWhile_before text more (not_of_mem_edges hb rfl)

/-- Nor do the digits after a point. -/
theorem pointDigits_before : pointDigits (text ++ b :: more) = pointDigits text := by
  cases text with
  | nil =>
    have hpoint : '.' ≠ b := ne_of_mem_edges hb rfl
    rw [List.nil_append, pointDigits, pointDigits]
    · intro rest h
      cases h
    · intro rest h
      cases h
      exact hpoint rfl
  | cons c rest =>
    by_cases hc : c = '.'
    · subst hc
      simp [pointDigits, leadingDigits_before _ _ hb]
    · simp [pointDigits, hc]

end Numerals

/-- Nor does what the leading digits leave. -/
theorem drop_leadingDigits_before :
    (text ++ b :: more).drop (leadingDigits text).length =
      text.drop (leadingDigits text).length ++ b :: more :=
  drop_takeWhile_before text more Char.isDigit

/-- Leaving out a front part of the text. -/
theorem drop_front_before {front : List Char} (h : front ++ text.drop front.length = text) :
    (text ++ b :: more).drop front.length = text.drop front.length ++ b :: more := by
  refine List.drop_append_of_le_length ?_
  have hlength := congrArg List.length h
  rw [List.length_append] at hlength
  omega

namespace Numeral

/-- Nor does an exponent. -/
theorem exponent_before (hb : b ∈ edges) :
    Exponent.scan (text ++ b :: more) = Exponent.scan text := by
  have hexponent : ¬ b = 'e' := Ne.symm (ne_of_mem_edges hb rfl)
  have hminus : ¬ b = '-' := Ne.symm (ne_of_mem_edges hb rfl)
  cases text with
  | nil => simp [Exponent.scan, hexponent]
  | cons c rest =>
    by_cases hc : c = 'e'
    · subst hc
      cases rest with
      | nil =>
        have h := drop_leadingDigits_before [] more (b := b)
        have h' := leadingDigits_before [] more hb
        have h'' := pointDigits_before [] more hb
        rw [List.nil_append] at h h' h''
        simp [Exponent.scan, hminus, h', h, h'']
      | cons d rest =>
        by_cases hd : d = '-'
        · subst hd
          simp [Exponent.scan, leadingDigits_before _ _ hb, pointDigits_before _ _ hb,
            drop_leadingDigits_before]
        · have h := drop_leadingDigits_before (d :: rest) more (b := b)
          have h' := leadingDigits_before (d :: rest) more hb
          rw [List.cons_append] at h h'
          simp [Exponent.scan, hd, h, h', pointDigits_before _ _ hb]
    · simp [Exponent.scan, hc]

/-- A numeral ends before an edge. -/
theorem scan_before (hb : b ∈ edges) : scan (text ++ b :: more) = scan text := by
  unfold scan
  simp only [leadingDigits_before _ _ hb, drop_leadingDigits_before, pointDigits_before _ _ hb,
    drop_front_before _ more (pointed_pointDigits_append _), exponent_before _ _ hb,
    drop_front_before _ more (exponentText_append _)]
  rw [head?_before _ more (ne_of_mem_edges hb rfl)]

end Numeral

/-! ## Lexemes -/

namespace Lexeme

/-- Nor does a number. -/
theorem numeral_before (hb : b ∈ edges) (c : Char) :
    numeral (c :: (text ++ b :: more)) = numeral (c :: text) := by
  rw [numeral, ← List.cons_append, Numeral.scan_before _ _ hb, numeral]

/-- Nor does a sign of one or two characters. -/
theorem sign_before (hb : b ∈ edges) {second : Char} (h : edges.contains second = false)
    (two one : TokenKind) : sign second two one (text ++ b :: more) = sign second two one text := by
  rw [sign, head?_before text more (ne_of_mem_edges hb h), sign]

/-- Only blanks, comments, quoted texts and backslashes can read on over an edge. -/
theorem rule_edge (hb : b ∈ edges) {c : Char} (hblank : ¬ isBlank c) (hcomment : c ≠ '#')
    (hquote : c ≠ '"') (hslash : c ≠ '\\') (rest : List Char) :
    rule c (rest ++ b :: more) = rule c rest := by
  have hsign (second : Char) (hs : edges.contains second = false) := sign_before rest more hb hs
  unfold rule
  rw [if_neg hblank, if_neg hblank]
  simp only [leadingDigits_before rest more hb, numeral_before rest more hb,
    takeWhile_before rest more (not_of_mem_edges (p := isNameChar) hb rfl),
    hsign '>' rfl, hsign '=' rfl]
  split
  · rfl
  · split
    · rfl
    · split <;> first
        | rfl
        | exact absurd rfl hcomment
        | exact absurd rfl hquote
        | exact absurd rfl hslash

/-- Only comments, quoted texts and backslashes can read on over a border character. -/
theorem rule_before (hb : isBorder b) {c : Char} (hcomment : c ≠ '#') (hquote : c ≠ '"')
    (hslash : c ≠ '\\') (rest : List Char) : rule c (rest ++ b :: more) = rule c rest := by
  by_cases hblank : isBlank c
  · unfold rule
    rw [if_pos hblank, if_pos hblank,
      takeWhile_before rest more (not_of_isBorder (p := isBlank) hb rfl rfl rfl)]
  · exact rule_edge more (mem_edges_of_isBorder hb) hblank hcomment hquote hslash rest

/-! ### Before a line feed -/

/-- A quoted text ends with its line at the latest. -/
theorem quoted_lineFeed : quoted (text ++ '\n' :: more) = quoted text := by
  unfold quoted
  simp only [takeWhile_before text more (p := fun c => c != '"' && c != '\n') (b := '\n') rfl,
    drop_takeWhile_before]
  cases text.drop (text.takeWhile fun c => c != '"' && c != '\n').length <;> rfl

/-- So does a comment. -/
theorem comment_lineFeed : comment (text ++ '\n' :: more) = comment text :=
  takeWhile_before text more (b := '\n') rfl

/-- The comment after a backslash lies in the text after its blanks. -/
theorem length_note_le :
    (if text.head? == some '#' then comment text else []).length ≤ text.length := by
  split
  · exact (List.takeWhile_prefix _).length_le
  · exact Nat.zero_le _

/-- A backslash that joins two lines of the text joins the same lines if the text goes on. -/
theorem continuation_lineFeed (h : (continuation text).2 ≠ .continuation false) :
    continuation (text ++ '\n' :: more) = continuation text := by
  have hblanks := takeWhile_before text more (p := fun c => c == ' ' || c == '\t' || c == '\r')
    (b := '\n') rfl
  unfold continuation at h ⊢
  simp only [hblanks, drop_takeWhile_before, comment_lineFeed] at h ⊢
  generalize text.drop (text.takeWhile fun c => c == ' ' || c == '\t' || c == '\r').length =
    afterBlanks at h ⊢
  rw [head?_before afterBlanks more (by decide)]
  have hnote := length_note_le afterBlanks
  rw [List.drop_append_of_le_length hnote]
  generalize (if afterBlanks.head? == some '#' then comment afterBlanks else []) = note at h ⊢
  -- a line feed follows already, so none is needed from behind the text
  cases hend : afterBlanks.drop note.length with
  | nil => simp [hend] at h
  | cons c rest => rfl

/-- A rule reads the same before a line feed, unless it has read a backslash that joins nothing:
more text may make it join lines. -/
theorem rule_lineFeed {c : Char} {rest : List Char} (h : (rule c rest).2 ≠ .continuation false) :
    rule c (rest ++ '\n' :: more) = rule c rest := by
  by_cases hslash : c = '\\'
  · subst hslash
    exact continuation_lineFeed rest more h
  by_cases hcomment : c = '#'
  · subst hcomment
    exact congrArg (fun note : List Char => (note.length, LexemeKind.space))
      (comment_lineFeed rest more)
  by_cases hquote : c = '"'
  · subst hquote
    exact quoted_lineFeed rest more
  · exact rule_before more rfl hcomment hquote hslash rest

/-! ### Within a front part of the text -/

section Within

variable {front tail : List Char} (tail' : List Char)

/-- The body of a quoted text is part of it. -/
theorem length_body_le : (text.takeWhile fun c => c != '"' && c != '\n').length ≤ (quoted text).1 := by
  unfold quoted
  dsimp only
  split
  · exact Nat.le_succ _
  · exact Nat.le_refl _

/-- A quoted text that ends within a front part of the text depends on that part only. -/
theorem quoted_within (h : (quoted (front ++ tail)).1 < front.length) :
    quoted (front ++ tail') = quoted (front ++ tail) := by
  have hbody := Nat.lt_of_le_of_lt (length_body_le (front ++ tail)) h
  unfold quoted
  simp only [takeWhile_within tail' hbody, head?_drop_within tail tail' hbody]

/-- So does the comment after a backslash. -/
theorem note_within
    (h : (if (front ++ tail).head? == some '#' then comment (front ++ tail) else []).length <
      front.length) :
    (if (front ++ tail').head? == some '#' then comment (front ++ tail') else []) =
      if (front ++ tail).head? == some '#' then comment (front ++ tail) else [] := by
  have hhead : (front ++ tail').head? = (front ++ tail).head? := by
    cases front with
    | nil => cases h
    | cons c front => rfl
  rw [hhead]
  split
  · next hhash =>
    rw [if_pos hhash] at h
    exact takeWhile_within tail' h
  · rfl

/-- So does a backslash with what it reads. -/
theorem continuation_within (h : (continuation (front ++ tail)).1 < front.length) :
    continuation (front ++ tail') = continuation (front ++ tail) := by
  unfold continuation at h ⊢
  dsimp only at h ⊢
  have hlt : ((front ++ tail).takeWhile fun c => c == ' ' || c == '\t' || c == '\r').length <
      front.length := by omega
  have hblanks := takeWhile_within tail' hlt
  rw [hblanks]
  generalize hcount : ((front ++ tail).takeWhile fun c => c == ' ' || c == '\t' || c == '\r').length =
    count at h ⊢
  rw [hcount] at hlt
  have hle : count ≤ front.length := Nat.le_of_lt hlt
  rw [List.drop_append_of_le_length hle] at h ⊢
  rw [List.drop_append_of_le_length hle]
  have hlength : (front.drop count).length = front.length - count := List.length_drop
  generalize front.drop count = afterBlanks at h hlength ⊢
  have hnote : (if (afterBlanks ++ tail).head? == some '#' then comment (afterBlanks ++ tail)
      else []).length < afterBlanks.length := by omega
  rw [note_within tail' hnote, head?_drop_within tail tail' hnote]

/-- **A lexeme that ends before a border character does not depend on what follows the character.** -/
theorem rule_within (hb : isBorder b) {c : Char}
    (h : (rule c (front ++ b :: tail)).1 ≤ front.length) :
    rule c (front ++ b :: tail') = rule c (front ++ b :: tail) := by
  have hfront : ∀ tail : List Char, front ++ b :: tail = (front ++ [b]) ++ tail := by simp
  have hlt : (rule c ((front ++ [b]) ++ tail)).1 < (front ++ [b]).length := by
    rw [← hfront, List.length_append]
    exact Nat.lt_succ_of_le h
  by_cases hslash : c = '\\'
  · subst hslash
    rw [hfront tail', hfront tail]
    exact continuation_within tail' hlt
  by_cases hcomment : c = '#'
  · subst hcomment
    rw [hfront tail', hfront tail]
    exact congrArg (fun note : List Char => (note.length, LexemeKind.space))
      (takeWhile_within tail' hlt)
  by_cases hquote : c = '"'
  · subst hquote
    rw [hfront tail', hfront tail]
    exact quoted_within tail' hlt
  · rw [rule_before _ hb hcomment hquote hslash, rule_before _ hb hcomment hquote hslash]

end Within

/-! ## Lexemes lie in their text -/

/-- One more character than a front part is there if the next one is known. -/
theorem length_succ_le {front text : List Char} {c : Char} (h : front.length ≤ text.length)
    (hc : (text.drop front.length).head? = some c) : front.length + 1 ≤ text.length := by
  have hne : text.drop front.length ≠ [] := by
    intro hnil
    simp [hnil] at hc
  have hpos := List.length_pos_iff.mpr hne
  rw [List.length_drop] at hpos
  omega

/-- A quoted text takes no more than there is. -/
theorem quoted_le : (quoted text).1 ≤ text.length := by
  have hbody := (text.takeWhile_prefix fun c => c != '"' && c != '\n').length_le
  unfold quoted
  dsimp only
  split
  · next hquote => exact length_succ_le hbody hquote
  · exact hbody

/-- Nor does a joined line. -/
theorem continuation_le : (continuation text).1 ≤ text.length := by
  have hblanks := (text.takeWhile_prefix fun c => c == ' ' || c == '\t' || c == '\r').length_le
  unfold continuation
  dsimp only
  generalize text.takeWhile (fun c => c == ' ' || c == '\t' || c == '\r') = blanks at hblanks ⊢
  generalize hafter : text.drop blanks.length = afterBlanks
  have hlength := congrArg List.length hafter
  rw [List.length_drop] at hlength
  have hnote := length_note_le afterBlanks
  generalize (if afterBlanks.head? == some '#' then comment afterBlanks else []) = note at hnote ⊢
  by_cases hjoined : (afterBlanks.drop note.length).head? = some '\n'
  · have := length_succ_le hnote hjoined
    simp only [hjoined, beq_self_eq_true, Bool.toNat_true]
    omega
  · simp only [beq_eq_false_iff_ne.mpr hjoined, Bool.toNat_false]
    omega

/-- Nor does a sign. -/
theorem sign_le (second : Char) (two one : TokenKind) : (sign second two one text).1 ≤ text.length := by
  cases text with
  | nil => simp [sign]
  | cons c rest =>
    unfold sign
    split <;> simp

/-- A lexeme ends in its text. -/
theorem rule_le (c : Char) (rest : List Char) : (rule c rest).1 ≤ rest.length := by
  have hnumeral : (numeral (c :: rest)).1 ≤ rest.length := by
    have h := congrArg List.length (Numeral.scan_text_append (c :: rest))
    rw [List.length_append, List.length_cons] at h
    show (Numeral.scan (c :: rest)).text.length - 1 ≤ _
    omega
  unfold rule
  split
  · exact (List.takeWhile_prefix _).length_le
  · split
    · exact hnumeral
    · split
      · exact (List.takeWhile_prefix _).length_le
      · split <;> first
          | exact Nat.zero_le _
          | exact sign_le ..
          | exact quoted_le _
          | exact continuation_le _
          | exact (List.takeWhile_prefix _).length_le

/-! ## The stream -/

/-- Whether a lexeme is anything but a backslash that joins no lines. -/
def isJoined (x : Lexeme) : Bool := x.kind != .continuation false

/-- A line feed is a lexeme of its own. -/
theorem stream_lineFeed : stream ('\n' :: more) = ⟨['\n'], .token .newline⟩ :: stream more := by
  rw [stream]
  rfl

/-- **The lexemes of a text whose backslashes all join lines stay what they are before a line feed.** -/
theorem stream_append_lineFeed (h : ∀ x ∈ stream text, x.isJoined) :
    stream (text ++ '\n' :: more) = stream text ++ ⟨['\n'], .token .newline⟩ :: stream more := by
  fun_induction stream text with
  | case1 => exact stream_lineFeed more
  | case2 c rest ih =>
    have hc : (first c rest).isJoined := h _ List.mem_cons_self
    have hrule : rule c (rest ++ '\n' :: more) = rule c rest := by
      refine rule_lineFeed more ?_
      simpa [isJoined, first] using hc
    have hle := rule_le c rest
    rw [List.cons_append, stream]
    have hfirst : first c (rest ++ '\n' :: more) = first c rest := by
      rw [first, hrule, List.take_append_of_le_length hle, first]
    have hafter : after c (rest ++ '\n' :: more) = after c rest ++ '\n' :: more := by
      rw [after, hrule, List.drop_append_of_le_length hle, after]
    rw [hfirst, hafter, ih fun x hx => h x (List.mem_cons_of_mem _ hx), List.cons_append]

/-- **The lexemes before a border character stay what they are whatever follows the character.** -/
theorem stream_before (hb : isBorder b) {before : List Lexeme} {front tail : List Char}
    (h : stream (front ++ b :: tail) = before ++ stream (b :: tail))
    (hfront : before.flatMap Lexeme.text = front) (tail' : List Char) :
    stream (front ++ b :: tail') = before ++ stream (b :: tail') := by
  induction before generalizing front with
  | nil =>
    subst hfront
    rfl
  | cons x before ih =>
    have hmem : x ∈ stream (front ++ b :: tail) := by
      rw [h]
      exact List.mem_cons_self
    have hx : x.text ≠ [] := text_ne_nil_of_mem_stream hmem
    rw [List.flatMap_cons] at hfront
    cases front with
    | nil => exact absurd (List.append_eq_nil_iff.mp hfront).1 hx
    | cons c front =>
      rw [List.cons_append, stream, List.cons_append] at h
      injection h with hfirst hrest
      have hcount : x.text.length = (rule c (front ++ b :: tail)).1 + 1 := by
        rw [← hfirst, first, List.length_cons, List.length_take, Nat.min_eq_left (rule_le ..)]
      have hle : (rule c (front ++ b :: tail)).1 ≤ front.length := by
        have hlength := congrArg List.length hfront
        rw [List.length_append, List.length_cons] at hlength
        omega
      have hrule := rule_within tail' hb hle
      have hfirst' : first c (front ++ b :: tail') = x := by
        rw [← hfirst, first, first, hrule, List.take_append_of_le_length hle,
          List.take_append_of_le_length hle]
      rw [after, List.drop_append_of_le_length hle] at hrest
      have hdrop : before.flatMap Lexeme.text = front.drop (rule c (front ++ b :: tail)).1 := by
        have := congrArg (List.drop x.text.length) hfront
        rwa [List.drop_left, hcount, List.drop_succ_cons] at this
      rw [List.cons_append, stream, hfirst', after, hrule, List.drop_append_of_le_length hle,
        ih hrest hdrop, List.cons_append]

end Lexeme

end Abacus
