import Abacus.Proofs.Syntax.Incomplete
import Mathlib.Data.List.Forall2
import Mathlib.Data.List.TakeWhile

/-!
# Carriage returns before line feeds

A carriage return is a blank, so one that is put before a line feed has to go somewhere: to the
blanks or to the comment before it, to what a backslash reads on its line, or it is a blank by
itself. Wherever it goes, the line feed after it stays what it is, and the line after that begins at
its first column.

**The law** (`Statement.split_crlf`): if a text falls into statements without a fault, then with a
carriage return before each line feed it falls into as many statements of the same tokens, each on
the line where it was and, line feeds apart, in the column where it was.

The lexemes of the two texts are not the same, nor are there equally many, so the statements are
compared through a relation of lexemes (`Lexeme.Widened`) in which the carriage returns have found
their places.
-/

namespace Abacus

/-! ## Texts -/

/-- A text with a carriage return before each of its line feeds. -/
def crlf (text : List Char) : List Char :=
  text.flatMap fun c => if c = '\n' then ['\r', '\n'] else [c]

@[simp] theorem crlf_nil : crlf [] = [] := rfl

@[simp] theorem crlf_lineFeed (rest : List Char) : crlf ('\n' :: rest) = '\r' :: '\n' :: crlf rest := rfl

/-- Any other character stays as it is. -/
theorem crlf_cons {c : Char} (hc : c ≠ '\n') (rest : List Char) : crlf (c :: rest) = c :: crlf rest := by
  rw [crlf, List.flatMap_cons, if_neg hc]
  rfl

/-- Each character is widened by itself. -/
theorem crlf_append (front back : List Char) : crlf (front ++ back) = crlf front ++ crlf back :=
  List.flatMap_append

/-- A text of one line stays what it is. -/
theorem crlf_of_notMem {text : List Char} (h : '\n' ∉ text) : crlf text = text := by
  induction text with
  | nil => rfl
  | cons c rest ih =>
    rw [List.mem_cons, not_or] at h
    rw [crlf_cons (Ne.symm h.1), ih h.2]

/-- The first line of a text, and the rest of it with the line feed. -/
theorem exists_line (text : List Char) :
    ∃ line tail, text = line ++ tail ∧ '\n' ∉ line ∧ (tail = [] ∨ ∃ rest, tail = '\n' :: rest) := by
  by_cases h : '\n' ∈ text
  · obtain ⟨line, rest, htext, hline⟩ := List.eq_append_cons_of_mem h
    exact ⟨line, _, htext, hline, .inr ⟨rest, rfl⟩⟩
  · exact ⟨text, [], (List.append_nil text).symm, h, .inl rfl⟩

/-! ## Positions and tokens -/

namespace Position

/-- Whether two positions are on one line and in one column. -/
def Alike (p q : Position) : Prop := p.line = q.line ∧ p.column = q.column

/-- Whether two positions are on one line. -/
def Level (p q : Position) : Prop := p.line = q.line

variable {p q : Position}

/-- Texts that are passed over keep positions alike. -/
theorem Alike.advance (h : p.Alike q) (text : List Char) : (p.advance text).Alike (q.advance text) := by
  induction text generalizing p q with
  | nil => exact h
  | cons c rest ih =>
    refine ih ?_
    obtain ⟨hline, hcolumn⟩ := h
    unfold step
    split <;> simp [Alike, hline, hcolumn]

/-- A text without line feeds stays on its line. -/
theorem line_advance {text : List Char} (h : '\n' ∉ text) (p : Position) :
    (p.advance text).line = p.line := by
  induction text generalizing p with
  | nil => rfl
  | cons c rest ih =>
    rw [List.mem_cons, not_or] at h
    rw [advance_cons, ih h.2, step, if_neg (Ne.symm h.1)]

/-- Two texts of one line each leave a line as it is. -/
theorem Level.advance (h : p.Level q) {front front' : List Char} (hfront : '\n' ∉ front)
    (hfront' : '\n' ∉ front') : (p.advance front).Level (q.advance front') := by
  rw [Level, line_advance hfront, line_advance hfront']
  exact h

/-- The next line begins in the same column wherever this one ends. -/
theorem Level.lineFeed (h : p.Level q) : (p.advance ['\n']).Alike (q.advance ['\n']) :=
  ⟨congrArg (· + 1) h, rfl⟩

end Position

/-- Whether two tokens are the same, on one line, and in one column but for line feeds. -/
def Token.Alike (a b : Token) : Prop :=
  a.kind = b.kind ∧ a.position.line = b.position.line ∧
    (a.kind ≠ .newline → a.position.column = b.position.column)

/-! ## Lexemes -/

namespace Lexeme

open Statement (lineFeed)

/-- Lexemes, and others into which carriage returns have been put before the line feeds. -/
inductive Widened : List Lexeme → List Lexeme → Prop
  | nil : Widened [] []
  | same {x : Lexeme} {xs ys : List Lexeme} : x.isJoined → Widened xs ys →
    Widened (x :: xs) (x :: ys)
  | lineFeed {xs ys : List Lexeme} : Widened xs ys →
    Widened (lineFeed :: xs) (⟨['\r'], .space⟩ :: lineFeed :: ys)
  | space {t : List Char} {xs ys : List Lexeme} : '\n' ∉ t → Widened xs ys →
    Widened (⟨t, .space⟩ :: lineFeed :: xs) (⟨t ++ ['\r'], .space⟩ :: lineFeed :: ys)
  | joined {t : List Char} {xs ys : List Lexeme} : '\n' ∉ t → Widened xs ys →
    Widened (⟨t ++ ['\n'], .continuation true⟩ :: xs)
      (⟨t ++ ['\r', '\n'], .continuation true⟩ :: ys)

/-- Behind a line feed that has been widened the lexemes are widened. -/
theorem of_widened_lineFeed {xs ys : List Lexeme}
    (h : Widened (lineFeed :: xs) (⟨['\r'], .space⟩ :: lineFeed :: ys)) : Widened xs ys := by
  generalize hxs : lineFeed :: xs = xs' at h
  generalize hys : ⟨['\r'], .space⟩ :: lineFeed :: ys = ys' at h
  cases h with
  | lineFeed h =>
    cases hxs
    cases hys
    exact h
  | same =>
    obtain ⟨rfl, rfl⟩ := List.cons.inj hxs
    simp [lineFeed] at hys
  | _ => simp [lineFeed] at hxs

/-- A text by its first lexeme and what follows it. -/
theorem stream_of_rule {c : Char} {front back : List Char} {kind : LexemeKind}
    (h : rule c (front ++ back) = (front.length, kind)) :
    stream (c :: (front ++ back)) = ⟨c :: front, kind⟩ :: stream back := by
  rw [stream, first, after, h, List.take_left, List.drop_left]

/-- What a rule leaves is what it did not take. -/
theorem after_of_rule {c : Char} {front back : List Char} {kind : LexemeKind}
    (h : rule c (front ++ back) = (front.length, kind)) : after c (front ++ back) = back := by
  rw [after, h, List.drop_left]

/-- A carriage return before a line feed is a blank by itself if nothing that it belongs to stands
before it. -/
theorem stream_crlf_lineFeed (rest : List Char) :
    stream (crlf ('\n' :: rest)) = ⟨['\r'], .space⟩ :: lineFeed :: stream (crlf rest) := by
  have hreturn : rule '\r' ([] ++ '\n' :: crlf rest) = (0, .space) := rfl
  rw [crlf_lineFeed, ← List.nil_append ('\n' :: crlf rest), stream_of_rule hreturn, stream_lineFeed]
  rfl

/-- A line feed becomes a blank and a line feed, and the rest goes on. -/
theorem widened_lineFeed {rest : List Char} (h : Widened (stream rest) (stream (crlf rest))) :
    Widened (stream ('\n' :: rest)) (stream (crlf ('\n' :: rest))) := by
  rw [stream_crlf_lineFeed, stream_lineFeed]
  exact .lineFeed h

/-- A lexeme of one line that does not depend on what follows it stays what it is. -/
theorem widened_same {c : Char} {front back : List Char} {kind : LexemeKind} (hc : c ≠ '\n')
    (hfront : '\n' ∉ front) (hrule : rule c (front ++ back) = (front.length, kind))
    (hrule' : rule c (front ++ crlf back) = (front.length, kind)) (hkind : kind ≠ .continuation false)
    (ih : Widened (stream back) (stream (crlf back))) :
    Widened (stream (c :: (front ++ back))) (stream (crlf (c :: (front ++ back)))) := by
  rw [crlf_cons hc, crlf_append, crlf_of_notMem hfront, stream_of_rule hrule, stream_of_rule hrule']
  exact .same (by simpa [isJoined] using hkind) ih

/-! ### Blanks and comments -/

section Runs

variable {p : Char → Bool} (hline : p '\n' = false) (hreturn : p '\r')

include hline hreturn

/-- A run of characters that a carriage return belongs to, and a line feed does not, grows by the
carriage return that is put after it. -/
theorem takeWhile_crlf (rest : List Char) :
    (crlf rest).takeWhile p = rest.takeWhile p ++
      (if (rest.dropWhile p).head? = some '\n' then ['\r'] else []) := by
  induction rest with
  | nil => simp
  | cons c rest ih =>
    by_cases hc : c = '\n'
    · subst hc
      simp [hline, hreturn]
    · rw [crlf_cons hc]
      by_cases hp : p c
      · simp [hp, ih]
      · simp [hp, hc]

/-- So do blanks, and so does a comment. -/
theorem widened_run {c : Char} (hc : c ≠ '\n')
    (hrule : ∀ rest, rule c rest = ((rest.takeWhile p).length, .space)) {rest : List Char}
    (ih : Widened (stream (after c rest)) (stream (crlf (after c rest)))) :
    Widened (stream (c :: rest)) (stream (crlf (c :: rest))) := by
  have hgrown := takeWhile_crlf hline hreturn rest
  have hsplit : rest.takeWhile p ++ rest.dropWhile p = rest := List.takeWhile_append_dropWhile
  have hfront : '\n' ∉ rest.takeWhile p := fun hmem => by
    have := List.mem_takeWhile_imp hmem
    rw [hline] at this
    cases this
  have hread := hrule rest
  have hread' := hrule (crlf rest)
  generalize rest.takeWhile p = front at hgrown hsplit hfront hread
  generalize rest.dropWhile p = back at hgrown hsplit
  subst hsplit
  rw [after_of_rule hread] at ih
  rw [hgrown, crlf_append, crlf_of_notMem hfront] at hread'
  by_cases hend : back.head? = some '\n'
  · obtain ⟨tail, rfl⟩ : ∃ tail, back = '\n' :: tail := List.head?_eq_some_iff.mp hend
    rw [stream_crlf_lineFeed, stream_lineFeed] at ih
    rw [if_pos hend, crlf_lineFeed, ← List.singleton_append, ← List.append_assoc] at hread'
    rw [crlf_cons hc, crlf_append, crlf_of_notMem hfront, stream_of_rule hread, stream_lineFeed,
      crlf_lineFeed, ← List.singleton_append (x := '\r'), ← List.append_assoc,
      stream_of_rule hread', stream_lineFeed]
    refine .space (t := c :: front) ?_ (of_widened_lineFeed ih)
    simp [hfront, Ne.symm hc]
  · rw [if_neg hend, List.append_nil] at hread'
    exact widened_same hc hfront hread hread' (by simp) ih

end Runs

/-! ### Joined lines -/

/-- What a backslash joins to the next line: blanks, and perhaps a comment. -/
def Joins (line : List Char) : Prop :=
  ∃ blanks note, line = blanks ++ note ∧ (∀ c ∈ blanks, c = ' ' ∨ c = '\t' ∨ c = '\r') ∧
    (note = [] ∨ ∃ body, note = '#' :: body ∧ '\n' ∉ body)

/-- What joins two lines has no line feed before its end. -/
theorem Joins.notMem {line : List Char} (h : Joins line) : '\n' ∉ line := by
  obtain ⟨blanks, note, rfl, hblanks, hnote⟩ := h
  rw [List.mem_append, not_or]
  constructor
  · intro hmem
    rcases hblanks _ hmem with h | h | h <;> cases h
  · rcases hnote with rfl | ⟨body, rfl, hbody⟩
    · simp
    · simpa using hbody

/-- A carriage return behind it is one of its blanks, or belongs to its comment. -/
theorem Joins.widen {line : List Char} (h : Joins line) : Joins (line ++ ['\r']) := by
  obtain ⟨blanks, note, rfl, hblanks, rfl | ⟨body, rfl, hbody⟩⟩ := h
  · refine ⟨blanks ++ ['\r'], [], by simp, ?_, .inl rfl⟩
    intro c hc
    rcases List.mem_append.mp hc with hc | hc
    · exact hblanks c hc
    · exact .inr (.inr (List.mem_singleton.mp hc))
  · exact ⟨blanks, '#' :: body ++ ['\r'], by simp, hblanks, .inr ⟨body ++ ['\r'], rfl, by simpa using hbody⟩⟩

/-- A backslash joins the line that it is on to the next one if nothing else is behind it. -/
theorem continuation_of_joins {line : List Char} (h : Joins line) (tail : List Char) :
    continuation (line ++ '\n' :: tail) = (line.length + 1, .continuation true) := by
  obtain ⟨blanks, note, rfl, hblanks, hnote⟩ := h
  have htake : (blanks ++ (note ++ '\n' :: tail)).takeWhile (fun c => c == ' ' || c == '\t' || c == '\r') =
      blanks := by
    rw [List.takeWhile_append_of_pos fun c hc => by simpa [or_assoc] using hblanks c hc]
    rcases hnote with rfl | ⟨body, rfl, -⟩ <;> simp
  unfold continuation
  simp only [List.append_assoc, htake, List.drop_left]
  rcases hnote with rfl | ⟨body, rfl, hbody⟩
  · simp
  · have hcomment : comment ('#' :: body ++ '\n' :: tail) = '#' :: body := by
      rw [comment_lineFeed, comment, List.takeWhile_eq_self_iff]
      intro c hc
      rcases List.mem_cons.mp hc with rfl | hc
      · rfl
      · simpa using fun heq : c = '\n' => hbody (heq ▸ hc)
    simp only [List.cons_append, List.head?_cons, beq_self_eq_true, if_true]
    rw [← List.cons_append, hcomment, List.drop_left]
    simp

/-- After a backslash that joins lines come blanks and perhaps a comment, and the line feed. -/
theorem exists_joins {rest : List Char} (h : (continuation rest).2 = .continuation true) :
    ∃ line tail, rest = line ++ '\n' :: tail ∧ Joins line := by
  unfold continuation at h
  simp only [LexemeKind.continuation.injEq, beq_iff_eq] at h
  have hblanks : ∀ c ∈ rest.takeWhile fun c => c == ' ' || c == '\t' || c == '\r',
      c = ' ' ∨ c = '\t' ∨ c = '\r' := fun c hc => by
    simpa [or_assoc] using List.mem_takeWhile_imp hc
  have hsplit := List.prefix_iff_eq_append.mp
    (rest.takeWhile_prefix fun c => c == ' ' || c == '\t' || c == '\r')
  generalize (rest.takeWhile fun c => c == ' ' || c == '\t' || c == '\r') = blanks at h hblanks hsplit
  generalize rest.drop blanks.length = afterBlanks at h hsplit
  subst hsplit
  by_cases hnote : afterBlanks.head? = some '#'
  · obtain ⟨more, rfl⟩ := List.head?_eq_some_iff.mp hnote
    have hcomment : comment ('#' :: more) = '#' :: comment more := rfl
    have hmore := List.prefix_iff_eq_append.mp (more.takeWhile_prefix (· != '\n'))
    rw [if_pos hnote, hcomment, List.length_cons, List.drop_succ_cons] at h
    obtain ⟨tail, htail⟩ := List.head?_eq_some_iff.mp h
    refine ⟨blanks ++ '#' :: comment more, tail, ?_, blanks, _, rfl, hblanks, .inr ⟨_, rfl, ?_⟩⟩
    · rw [← htail, List.append_assoc, List.cons_append, comment, hmore]
    · intro hmem
      simpa using List.mem_takeWhile_imp hmem
  · rw [if_neg hnote] at h
    obtain ⟨tail, rfl⟩ := List.head?_eq_some_iff.mp h
    exact ⟨blanks, tail, rfl, blanks, [], by simp, hblanks, .inl rfl⟩

/-- A backslash that joins lines takes the carriage return with the blanks before it. -/
theorem widened_slash {rest : List Char} (h : (continuation rest).2 = .continuation true)
    (ih : Widened (stream (after '\\' rest)) (stream (crlf (after '\\' rest)))) :
    Widened (stream ('\\' :: rest)) (stream (crlf ('\\' :: rest))) := by
  obtain ⟨line, tail, rfl, hline⟩ := exists_joins h
  have hrule (line : List Char) (hline : Joins line) (tail : List Char) :
      rule '\\' ((line ++ ['\n']) ++ tail) = ((line ++ ['\n']).length, .continuation true) := by
    rw [List.append_assoc, List.length_append]
    exact continuation_of_joins hline tail
  have hsplit (line tail : List Char) : line ++ '\n' :: tail = (line ++ ['\n']) ++ tail := by simp
  have hwide : crlf ('\\' :: (line ++ '\n' :: tail)) = '\\' :: ((line ++ ['\r']) ++ ['\n'] ++ crlf tail) := by
    rw [crlf_cons (by decide), crlf_append, crlf_of_notMem hline.notMem, crlf_lineFeed]
    simp
  rw [hsplit] at ih
  rw [after_of_rule (hrule line hline tail)] at ih
  rw [hwide, stream_of_rule (hrule _ hline.widen _), hsplit, stream_of_rule (hrule _ hline _)]
  have hslash : '\n' ∉ '\\' :: line := by simpa using hline.notMem
  simpa using Widened.joined hslash ih

/-! ### Words, signs, numerals and quoted texts -/

/-- Words, signs and numerals end before a line feed, and before a carriage return too. -/
theorem widened_plain {c : Char} {rest : List Char} (hblank : ¬ isBlank c) (hline : c ≠ '\n')
    (hcomment : c ≠ '#') (hquote : c ≠ '"') (hslash : c ≠ '\\')
    (ih : Widened (stream (after c rest)) (stream (crlf (after c rest)))) :
    Widened (stream (c :: rest)) (stream (crlf (c :: rest))) := by
  obtain ⟨line, tail, rfl, hfront, htail⟩ := exists_line rest
  have hends (tail : List Char) (h : ∀ b ∈ tail.head?, b ∈ edges) :
      rule c (line ++ tail) = rule c line := by
    cases tail with
    | nil => rw [List.append_nil]
    | cons b more => exact rule_edge more (h b rfl) hblank hcomment hquote hslash line
  have hread : rule c (line ++ tail) = rule c line := by
    rcases htail with rfl | ⟨more, rfl⟩ <;> exact hends _ (by simp [edges])
  have hread' : rule c (line ++ crlf tail) = rule c line := by
    rcases htail with rfl | ⟨more, rfl⟩ <;> exact hends _ (by simp [edges])
  have hkind : (rule c line).2 ≠ .continuation false := fun h => hslash (of_rule_continuation h)
  have hsplit := List.take_append_drop (rule c line).1 line
  have hlength : (line.take (rule c line).1).length = (rule c line).1 := by
    rw [List.length_take, Nat.min_eq_left (rule_le c line)]
  generalize rule c line = read at hread hread' hkind hsplit hlength
  obtain ⟨count, kind⟩ := read
  dsimp only at hsplit hlength
  generalize line.take count = front at hsplit hlength
  generalize line.drop count = back at hsplit
  subst hsplit hlength
  rw [List.mem_append, not_or] at hfront
  rw [List.append_assoc] at hread hread' ih ⊢
  rw [after_of_rule hread] at ih
  refine widened_same hline hfront.1 hread ?_ hkind ih
  rw [crlf_append, crlf_of_notMem hfront.2]
  exact hread'

/-- A quoted text ends on its line. -/
theorem widened_quoted {rest : List Char} (h : (quoted rest).2 ≠ .invalid .incomplete)
    (ih : Widened (stream (after '"' rest)) (stream (crlf (after '"' rest)))) :
    Widened (stream ('"' :: rest)) (stream (crlf ('"' :: rest))) := by
  obtain ⟨body, more, rfl, hbody⟩ := exists_quote h
  obtain ⟨kind, hkind, hrule⟩ : ∃ kind, kind ≠ .continuation false ∧
      ∀ more, quoted (body ++ '"' :: more) = (body.length + 1, kind) := by
    refine ⟨_, ?_, quoted_append_quote hbody⟩
    split <;> simp
  have hread (more : List Char) :
      rule '"' ((body ++ ['"']) ++ more) = ((body ++ ['"']).length, kind) := by
    rw [List.append_assoc, List.length_append]
    exact hrule more
  have hsplit : body ++ '"' :: more = (body ++ ['"']) ++ more := by simp
  rw [hsplit] at ih ⊢
  rw [after_of_rule (hread more)] at ih
  have hbody' : '\n' ∉ body ++ ['"'] := by
    simpa using fun hmem => (hbody _ hmem).2 rfl
  exact widened_same (by decide) hbody' (hread more) (hread _) hkind ih

/-- **The lexemes of a text without faults, and with a carriage return before each line feed.** -/
theorem widened_crlf {text : List Char} (h : ∀ x ∈ stream text, x.isRead) :
    Widened (stream text) (stream (crlf text)) := by
  fun_induction stream text with
  | case1 =>
    rw [crlf_nil, stream]
    exact .nil
  | case2 c rest ih =>
    have hread : (first c rest).isRead := h _ List.mem_cons_self
    replace ih := ih fun x hx => h x (List.mem_cons_of_mem _ hx)
    rw [← stream]
    by_cases hline : c = '\n'
    · subst hline
      exact widened_lineFeed ih
    by_cases hblank : isBlank c
    · exact widened_run rfl rfl hline (fun rest => if_pos hblank) ih
    by_cases hcomment : c = '#'
    · subst hcomment
      exact widened_run (p := fun c => c != '\n') rfl rfl hline (fun rest => rfl) ih
    by_cases hslash : c = '\\'
    · subst hslash
      refine widened_slash ?_ ih
      obtain ⟨joined, hkind⟩ : ∃ joined, (continuation rest).2 = .continuation joined := ⟨_, rfl⟩
      have hfirst : (first '\\' rest).kind = (continuation rest).2 := rfl
      rw [isRead, hfirst, hkind] at hread
      cases joined with
      | true => exact hkind
      | false => cases hread
    by_cases hquote : c = '"'
    · subst hquote
      refine widened_quoted (fun hkind => ?_) ih
      have hfirst : (first '"' rest).kind = (quoted rest).2 := rfl
      rw [isRead, hfirst, hkind] at hread
      cases hread
    exact widened_plain hblank hline hcomment hquote hslash ih

end Lexeme

namespace Statement

open Lexeme

/-! ## Reactions -/

/-- Reactions to one lexeme with brackets of the same shapes open. -/
inductive Reaction.Alike : Reaction → Reaction → Prop
  | skip : Alike .skip .skip
  | keep {kind : TokenKind} {opened opened' : List Open} : shapes opened = shapes opened' →
    Alike (.keep kind opened) (.keep kind opened')
  | stop : Alike .stop .stop
  | fail {fault : LexFault} : Alike (.fail fault) (.fail fault)

/-- Where brackets have been opened decides nothing. -/
theorem react_alike {x : Lexeme} (hx : x.isJoined) {opened opened' : List Open}
    (hshapes : shapes opened = shapes opened') (last last' : Bool) (p p' : Position) (begun : Bool) :
    (react x.kind last p begun opened).Alike (react x.kind last' p' begun opened') := by
  rw [react_last hx last' last]
  obtain ⟨text, kind⟩ := x
  cases kind with
  | token kind =>
    by_cases hdropped : isDropped kind (shapes opened)
    · have hempty : opened.isEmpty = opened'.isEmpty := by
        cases opened <;> cases opened' <;> first | rfl | cases hshapes
      rw [react, react, reactToToken_of_dropped hdropped, reactToToken_of_dropped (hshapes ▸ hdropped),
        hempty]
      split
      · exact .stop
      · exact .skip
    · have hkept := Bool.eq_false_iff.mpr hdropped
      obtain ⟨after, hreact, hafter⟩ := reactToToken_of_not_dropped p begun hkept
      obtain ⟨after', hreact', hafter'⟩ := reactToToken_of_not_dropped p' begun (hshapes ▸ hkept)
      rw [react, react, hreact, hreact']
      exact .keep (by rw [hafter, hafter', hshapes])
  | space => exact .skip
  | continuation joined =>
    cases joined with
    | true => exact .skip
    | false => simp [isJoined] at hx
  | invalid fault => exact .fail

/-! ## Statements that are read twice -/

/-- Two statements that are read from lexemes and from widened ones: they have the same tokens, and
what they leave is widened too and begins on the same line and in the same column. -/
structure Agrees (p p' : Position) (taken taken' : Nat) (xs ys : List Lexeme) (s s' : Statement) :
    Prop where
  tokens : List.Forall₂ Token.Alike s.tokens s'.tokens
  left : ∃ front back front' back', xs = front ++ back ∧ ys = front' ++ back' ∧ Widened back back' ∧
    s.taken = taken + (front.flatMap Lexeme.text).length ∧
    s'.taken = taken' + (front'.flatMap Lexeme.text).length ∧
    (p.advance (front.flatMap Lexeme.text)).Alike (p'.advance (front'.flatMap Lexeme.text))

/-- Whatever statement is read from the first lexemes, such a one is read from the others, if they
stand at related positions. -/
structure Twins (related : Position → Position → Prop) (xs ys : List Lexeme) : Prop where
  read : ∀ {p p' : Position} {begun : Bool} {opened opened' : List Open} {taken consumed : Nat}
    {s : Statement},
    related p p' → shapes opened = shapes opened' →
    ofLexemes p begun opened taken consumed xs = .ok s →
    ∀ taken' consumed', ∃ s', ofLexemes p' begun opened' taken' consumed' ys = .ok s' ∧
      Agrees p p' taken taken' xs ys s s'

section Twins

variable {p p' : Position} {taken taken' : Nat} {xs ys : List Lexeme} {s s' : Statement}
  {related next : Position → Position → Prop}

/-- A lexeme that only the first reading passes over. -/
theorem Agrees.left_cons {x : Lexeme}
    (h : Agrees (p.advance x.text) p' (taken + x.text.length) taken' xs ys s s') :
    Agrees p p' taken taken' (x :: xs) ys s s' := by
  obtain ⟨htokens, front, back, front', back', rfl, rfl, hback, htaken, htaken', hplace⟩ := h
  refine ⟨htokens, x :: front, back, front', back', rfl, rfl, hback, ?_, htaken', ?_⟩
  · rw [htaken, List.flatMap_cons, List.length_append, Nat.add_assoc]
  · rw [List.flatMap_cons, Position.advance_append]
    exact hplace

/-- A lexeme that only the second passes over. -/
theorem Agrees.right_cons {y : Lexeme}
    (h : Agrees p (p'.advance y.text) taken (taken' + y.text.length) xs ys s s') :
    Agrees p p' taken taken' xs (y :: ys) s s' := by
  obtain ⟨htokens, front, back, front', back', rfl, rfl, hback, htaken, htaken', hplace⟩ := h
  refine ⟨htokens, front, back, y :: front', back', rfl, rfl, hback, htaken, ?_, ?_⟩
  · rw [htaken', List.flatMap_cons, List.length_append, Nat.add_assoc]
  · rw [List.flatMap_cons, Position.advance_append]
    exact hplace

/-- Blanks in front of the first lexemes. -/
theorem Twins.left_space {text : List Char}
    (hnext : ∀ {p p'}, related p p' → next (p.advance text) p') (h : Twins next xs ys) :
    Twins related (⟨text, .space⟩ :: xs) ys := by
  constructor
  intro p p' begun opened opened' taken consumed s hp hshapes hread taken' consumed'
  obtain ⟨s', hs', hagrees⟩ := h.read (hnext hp) hshapes hread taken' consumed'
  exact ⟨s', hs', hagrees.left_cons⟩

/-- Blanks in front of the others. -/
theorem Twins.right_space {text : List Char}
    (hnext : ∀ {p p'}, related p p' → next p (p'.advance text)) (h : Twins next xs ys) :
    Twins related xs (⟨text, .space⟩ :: ys) := by
  constructor
  intro p p' begun opened opened' taken consumed s hp hshapes hread taken' consumed'
  obtain ⟨s', hs', hagrees⟩ := h.read (hnext hp) hshapes hread (taken' + text.length)
    (consumed' + byteLength text)
  exact ⟨s', hs', hagrees.right_cons⟩

/-- One lexeme in front of both. -/
theorem Twins.cons {x y : Lexeme} (hkind : y.kind = x.kind) (hx : x.isJoined)
    (htoken : ∀ {p p' kind}, x.kind = .token kind → related p p' → Token.Alike ⟨kind, p⟩ ⟨kind, p'⟩)
    (hnext : ∀ {p p'}, related p p' → (p.advance x.text).Alike (p'.advance y.text))
    (hwidened : Widened xs ys) (h : Twins Position.Alike xs ys) : Twins related (x :: xs) (y :: ys) := by
  constructor
  intro p p' begun opened opened' taken consumed s hp hshapes hread taken' consumed'
  have hreact := react_alike hx hshapes xs.isEmpty ys.isEmpty p p' begun
  rw [ofLexemes] at hread ⊢
  rw [hkind]
  generalize hleft : react x.kind xs.isEmpty p begun opened = reaction at hread hreact
  generalize react x.kind ys.isEmpty p' begun opened' = reaction' at hreact ⊢
  cases hreact with
  | skip =>
    obtain ⟨s', hs', hagrees⟩ := h.read (hnext hp) hshapes hread (taken' + y.text.length)
      (consumed' + byteLength y.text)
    exact ⟨s', hs', hagrees.right_cons.left_cons⟩
  | @keep kind after after' hafter =>
    obtain ⟨s₁, hs₁, rfl⟩ := of_map_cons hread
    obtain ⟨s', hs', hagrees⟩ := h.read (hnext hp) hafter hs₁ (taken' + y.text.length)
      (consumed' + byteLength y.text)
    obtain ⟨htokens, hcut⟩ := hagrees.right_cons.left_cons
    have hfront := htoken (of_react_keep hleft).1 hp
    exact ⟨_, congrArg (Except.map _) hs', .cons hfront htokens, hcut⟩
  | stop =>
    cases hread
    exact ⟨_, rfl, .nil, [x], xs, [y], ys, rfl, rfl, hwidened, by simp, by simp, by simpa using hnext hp⟩
  | fail => cases hread

end Twins

/-- Tokens in one place are alike. -/
theorem alike_token {p p' : Position} {kind : TokenKind} (h : p.Alike p') :
    Token.Alike ⟨kind, p⟩ ⟨kind, p'⟩ :=
  ⟨rfl, h.1, fun _ => h.2⟩

/-- A line feed on one line with another. -/
theorem twins_lineFeed {xs ys : List Lexeme} (hwidened : Widened xs ys)
    (h : Twins Position.Alike xs ys) : Twins Position.Level (lineFeed :: xs) (lineFeed :: ys) := by
  refine .cons rfl rfl ?_ Position.Level.lineFeed hwidened h
  rintro p p' kind hkind hp
  cases hkind
  exact ⟨rfl, hp, fun hne => absurd rfl hne⟩

/-- **What is read from lexemes is read from them when they are widened.** -/
theorem twins_of_widened {xs ys : List Lexeme} (h : Widened xs ys) : Twins Position.Alike xs ys := by
  induction h with
  | nil =>
    constructor
    intro p p' begun opened opened' taken consumed s hp hshapes hread taken' consumed'
    cases opened with
    | cons bracket outer => cases hread
    | nil =>
      cases opened' with
      | cons bracket outer => cases hshapes
      | nil =>
        cases hread
        exact ⟨_, rfl, .nil, [], [], [], [], rfl, rfl, .nil, rfl, rfl, hp⟩
  | @same x _ _ hx hwidened ih =>
    exact .cons rfl hx (fun _ => alike_token) (fun hp => hp.advance x.text) hwidened ih
  | lineFeed hwidened ih =>
    refine .right_space (fun {p p'} hp => ?_) (twins_lineFeed hwidened ih)
    have hlevel : (p.advance []).Level (p'.advance ['\r']) := Position.Level.advance hp.1 (by simp) (by decide)
    exact hlevel
  | @space t _ _ ht hwidened ih =>
    have hright : Twins (fun p p' => p.Level (p'.advance (t ++ ['\r']))) _ _ :=
      .right_space id (twins_lineFeed hwidened ih)
    exact .left_space (fun hp => Position.Level.advance hp.1 ht (by simpa using ht)) hright
  | @joined t _ _ ht hwidened ih =>
    refine .cons rfl rfl (fun hkind => nomatch hkind) (fun {p p'} hp => ?_) hwidened ih
    have hline : (p.advance t).Level (p'.advance (t ++ ['\r'])) :=
      Position.Level.advance hp.1 ht (by simpa using ht)
    have hjoined : t ++ ['\r', '\n'] = (t ++ ['\r']) ++ ['\n'] := by simp
    show (p.advance (t ++ ['\n'])).Alike (p'.advance (t ++ ['\r', '\n']))
    rw [hjoined, Position.advance_append, Position.advance_append]
    exact hline.lineFeed

/-! ## All statements of a text -/

/-- To split is to read the first statement, and to split the rest unless there is none. -/
theorem split_of_first {text : List Char} {origin : Position} {s : Statement}
    (h : first text origin = .ok s) :
    split text origin =
      if s.tokens = [] then ([s], none)
      else
        let more := split (text.drop s.taken) (origin.advance (text.take s.taken))
        (s :: more.1, more.2) := by
  rw [split]
  split
  · next e h' => rw [h] at h'; cases h'
  · next s' h' =>
    rw [h] at h'
    cases h'
    rfl

/-- If a text falls into statements, then so does every text whose lexemes are its widened ones. -/
theorem split_widened {text text' : List Char} {p p' : Position} (h : (split text p).2 = none)
    (hwidened : Widened (stream text) (stream text')) (hp : p.Alike p') :
    (split text' p').2 = none ∧
      List.Forall₂ (fun s s' => List.Forall₂ Token.Alike s.tokens s'.tokens)
        (split text p).1 (split text' p').1 := by
  fun_induction split text p generalizing text' p' with
  | case1 text p e hfirst => cases h
  | case2 text p s hfirst hempty =>
    rw [first_eq] at hfirst
    obtain ⟨s', hs', hagrees⟩ := (twins_of_widened hwidened).read hp rfl hfirst 0 0
    rw [← first_eq] at hs'
    have hempty' : s'.tokens = [] := by
      have htokens := hagrees.tokens
      rw [hempty] at htokens
      exact List.forall₂_nil_left_iff.mp htokens
    rw [split_of_first hs', if_pos hempty']
    exact ⟨rfl, .cons hagrees.tokens .nil⟩
  | case3 text p s hfirst hne more =>
    rename_i ih
    rw [first_eq] at hfirst
    obtain ⟨s', hs', htokens, front, back, front', back', hstream, hstream', hback, htaken, htaken',
      hplace⟩ := (twins_of_widened hwidened).read hp rfl hfirst 0 0
    rw [← first_eq] at hs'
    have hne' : s'.tokens ≠ [] := by
      intro hempty'
      rw [hempty'] at htokens
      exact hne (List.forall₂_nil_right_iff.mp htokens)
    rw [Nat.zero_add] at htaken htaken'
    have hrest : Widened (stream (text.drop s.taken)) (stream (text'.drop s'.taken)) := by
      rw [htaken, htaken', stream_drop hstream, stream_drop hstream']
      exact hback
    have horigin : (p.advance (text.take s.taken)).Alike (p'.advance (text'.take s'.taken)) := by
      rw [htaken, htaken', take_flatMap hstream, take_flatMap hstream']
      exact hplace
    obtain ⟨hnone, hmore⟩ := ih h hrest horigin
    rw [split_of_first hs', if_neg hne']
    exact ⟨hnone, .cons htokens hmore⟩

/-- **A carriage return before each line feed changes no statement.** -/
theorem split_crlf {text : List Char} {origin : Position} (h : (split text origin).2 = none) :
    (split (crlf text) origin).2 = none ∧
      List.Forall₂ (fun s s' => List.Forall₂ Token.Alike s.tokens s'.tokens)
        (split text origin).1 (split (crlf text) origin).1 := by
  have hread : ∀ x ∈ stream text, x.isRead := (split_tokens_after [] h rfl).2.2
  exact split_widened h (widened_crlf hread) ⟨rfl, rfl⟩

/-- Line feeds after a comment, in a block, in brackets, and behind a backslash with a comment: three
statements and nothing after them, of the same tokens with and without carriage returns. -/
theorem split_crlf_everywhere :
    let text := "a # one\n\x7bb\n(c\n)\x7d\n\n1 \\ # two\n+ 2\n".toList
    let kinds := [[.identifier "a"],
      [.opening .curly, .identifier "b", .newline, .opening .round, .identifier "c",
        .closing .round, .closing .curly],
      [.number (.integer 1), .operator .add, .number (.integer 2)], []]
    (split text .start).2 = none ∧ (split (crlf text) .start).2 = none ∧
      List.Forall₂ (fun s s' => List.Forall₂ Token.Alike s.tokens s'.tokens)
        (split text .start).1 (split (crlf text) .start).1 ∧
      (split text .start).1.map (·.tokens.map Token.kind) = kinds ∧
      (split (crlf text) .start).1.map (·.tokens.map Token.kind) = kinds := by
  intro text kinds
  have h : (split text .start).2 = none := by decide +kernel
  obtain ⟨hcrlf, halike⟩ := split_crlf h
  exact ⟨h, hcrlf, halike, by decide +kernel, by decide +kernel⟩

end Statement

end Abacus
