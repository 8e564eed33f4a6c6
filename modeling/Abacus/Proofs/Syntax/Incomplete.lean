import Abacus.Proofs.Syntax.Placement
import Abacus.Proofs.Syntax.Rules

/-!
# Incomplete texts

A statement is incomplete if its text ends in open brackets or in a backslash, and if a quoted text
has no end on its line. More text closes brackets and joins a backslash to the next line. An open
quote is another matter: it is closed only on its own line, and only over characters that a quoted
text may have.

**The law** (`Statement.incomplete_completes`): an incomplete statement that does not stand at a quote
can be completed by more text, and one that does if and only if nothing but ASCII characters of the
same line follow the quote.
-/

namespace Abacus

namespace Lexeme

/-! ## Quotes without an end -/

/-- Characters that a quoted text may go on over. -/
def InLine (body : List Char) : Prop := ∀ c ∈ body, c ≠ '"' ∧ c ≠ '\n'

/-- A body that stays in its line is part of the quoted text. -/
theorem takeWhile_inLine {body : List Char} (h : InLine body) (more : List Char) :
    (body ++ more).takeWhile (fun c => c != '"' && c != '\n') =
      body ++ more.takeWhile fun c => c != '"' && c != '\n' := by
  refine List.takeWhile_append_of_pos fun c hc => ?_
  simpa using h c hc

/-- A quote ends at the next one, if only such characters stand between the two. -/
theorem quoted_append_quote {body : List Char} (h : InLine body) (more : List Char) :
    quoted (body ++ '"' :: more) = (body.length + 1,
      match body.find? fun c => !isAscii c with
      | some c => .invalid (.unexpected c)
      | none => .token (.quoted (String.ofList body))) := by
  have htake : (body ++ '"' :: more).takeWhile (fun c => c != '"' && c != '\n') = body := by
    rw [takeWhile_inLine h]
    exact List.append_nil body
  rw [quoted, htake, List.drop_left]
  rfl

/-- It is closed if they may all be in a quoted text. -/
theorem quoted_closed {body : List Char} (h : InLine body) (hascii : ∀ c ∈ body, isAscii c)
    (more : List Char) :
    quoted (body ++ '"' :: more) = (body.length + 1, .token (.quoted (String.ofList body))) := by
  have hfind : body.find? (fun c => !isAscii c) = none := by
    rw [List.find?_eq_none]
    intro c hc
    simp [hascii c hc]
  rw [quoted_append_quote h, hfind]

/-- Such characters go on to the end of the text, to a quote, or to the end of their line. -/
theorem exists_inLine (rest : List Char) :
    InLine rest ∨ ∃ body d more, InLine body ∧ rest = body ++ d :: more ∧ (d = '"' ∨ d = '\n') := by
  induction rest with
  | nil => exact .inl fun _ hc => nomatch hc
  | cons c rest ih =>
    by_cases hend : c = '"' ∨ c = '\n'
    · exact .inr ⟨[], c, rest, fun _ hc => (nomatch hc), rfl, hend⟩
    · have hc : c ≠ '"' ∧ c ≠ '\n' := not_or.mp hend
      rcases ih with hrest | ⟨body, d, more, hbody, rfl, hd⟩
      · exact .inl (List.forall_mem_cons.mpr ⟨hc, hrest⟩)
      · exact .inr ⟨c :: body, d, more, List.forall_mem_cons.mpr ⟨hc, hbody⟩, rfl, hd⟩

/-- A quote is open up to the end of its text or the end of its line. -/
theorem of_quoted_incomplete {rest : List Char} (h : (quoted rest).2 = .invalid .incomplete) :
    InLine rest ∨ ∃ body more, rest = body ++ '\n' :: more := by
  rcases exists_inLine rest with hline | ⟨body, d, more, hbody, rfl, rfl | rfl⟩
  · exact .inl hline
  · have htake : ('"' :: more).takeWhile (fun c => c != '"' && c != '\n') = [] := rfl
    rw [quoted, takeWhile_inLine hbody, htake, List.append_nil, List.drop_left] at h
    simp only [List.head?_cons] at h
    split at h <;> cases h
  · exact .inr ⟨body, more, rfl⟩

/-- A quote without another one reads the text to its end. -/
theorem quoted_open {rest : List Char} (h : InLine rest) :
    quoted rest = (rest.length, .invalid .incomplete) := by
  have htake := takeWhile_inLine h []
  simp only [List.append_nil, List.takeWhile_nil] at htake
  simp [quoted, htake]

/-- A quote that is not incomplete has another one on its line. -/
theorem exists_quote {rest : List Char} (h : (quoted rest).2 ≠ .invalid .incomplete) :
    ∃ body more, rest = body ++ '"' :: more ∧ InLine body := by
  rcases exists_inLine rest with hline | ⟨body, d, more, hbody, rfl, rfl | rfl⟩
  · rw [quoted_open hline] at h
    exact absurd rfl h
  · exact ⟨body, more, rfl, hbody⟩
  · rw [quoted_lineFeed, quoted_open hbody] at h
    exact absurd rfl h

/-- An open quote with a line feed or a character behind it that no quoted text may have is never
closed. -/
theorem quoted_never {rest : List Char} (h : (quoted rest).2 = .invalid .incomplete)
    {d : Char} (hd : d ∈ rest) (hbad : ¬(isAscii d ∧ d ≠ '\n')) (more : List Char) :
    ∃ fault, (quoted (rest ++ more)).2 = .invalid fault := by
  rcases of_quoted_incomplete h with hline | ⟨body, tail, rfl⟩
  · have hascii : ¬ isAscii d := fun hascii => hbad ⟨hascii, (hline d hd).2⟩
    unfold quoted
    dsimp only
    split
    · cases hfind : List.find? (fun c => !isAscii c)
          ((rest ++ more).takeWhile fun c => c != '"' && c != '\n') with
      | none =>
        rw [takeWhile_inLine hline, List.find?_eq_none] at hfind
        have := hfind d (List.mem_append_left _ hd)
        simp [hascii] at this
      | some c => exact ⟨_, rfl⟩
    · exact ⟨_, rfl⟩
  · rw [quoted_lineFeed] at h
    rw [List.append_assoc, List.cons_append, quoted_lineFeed]
    exact ⟨_, h⟩

/-! ## Backslashes at the end of a text -/

/-- A backslash that reads the text to its end joins its line to the next one if there is one. -/
theorem continuation_joined {rest : List Char} (h : (continuation rest).2 = .continuation false)
    (hend : rest.drop (continuation rest).1 = []) (more : List Char) :
    continuation (rest ++ '\n' :: more) = (rest.length + 1, .continuation true) := by
  have hblanks := takeWhile_before rest more (p := fun c => c == ' ' || c == '\t' || c == '\r')
    (b := '\n') rfl
  have hle := continuation_le rest
  unfold continuation at h hend hle ⊢
  simp only [hblanks, drop_takeWhile_before, comment_lineFeed, LexemeKind.continuation.injEq]
    at h hend hle ⊢
  generalize (rest.takeWhile fun c => c == ' ' || c == '\t' || c == '\r') = blanks at h hend hle ⊢
  rw [h, Bool.toNat_false, Nat.add_zero] at hend hle
  have hlength := List.drop_eq_nil_iff.mp hend
  rw [← List.drop_drop] at hend
  generalize rest.drop blanks.length = afterBlanks at h hend hle hlength ⊢
  rw [head?_before afterBlanks more (by decide),
    List.drop_append_of_le_length (length_note_le afterBlanks), hend, Nat.le_antisymm hle hlength]
  rfl

end Lexeme

namespace Statement

open Lexeme

/-! ## Lexemes that are passed -/

/-- Reading passes lexemes: from one place, with some brackets open, it comes to another. -/
inductive Passes : Position → Bool → List Open → List Lexeme → Position → Bool → List Open → Prop
  | nil {p : Position} {begun : Bool} {opened : List Open} : Passes p begun opened [] p begun opened
  | skip {p p' : Position} {begun begun' : Bool} {opened opened' : List Open} {x : Lexeme}
    {xs : List Lexeme} : (∀ last, react x.kind last p begun opened = .skip) →
    Passes (p.advance x.text) begun opened xs p' begun' opened' →
    Passes p begun opened (x :: xs) p' begun' opened'
  | keep {p p' : Position} {begun begun' : Bool} {opened opened₁ opened' : List Open} {x : Lexeme}
    {xs : List Lexeme} {kind : TokenKind} :
    (∀ last, react x.kind last p begun opened = .keep kind opened₁) →
    Passes (p.advance x.text) true opened₁ xs p' begun' opened' →
    Passes p begun opened (x :: xs) p' begun' opened'

/-- Whether a statement can be read. -/
def Succeeds (p : Position) (begun : Bool) (opened : List Open) (taken consumed : Nat)
    (xs : List Lexeme) : Prop := ∃ s, ofLexemes p begun opened taken consumed xs = .ok s

section Passes

variable {p p' : Position} {begun begun' : Bool} {opened opened' : List Open} {xs : List Lexeme}

/-- What is done to a statement afterwards makes no error. -/
theorem of_map_error {f : Statement → Statement} {read : Except LexError Statement} {e : LexError}
    (h : read.map f = .error e) : read = .error e := by
  cases read with
  | error _ => exact h
  | ok _ => cases h

/-- Lexemes that are passed move the position by their text. -/
theorem Passes.position (h : Passes p begun opened xs p' begun' opened') :
    p' = p.advance (xs.flatMap Lexeme.text) := by
  induction h with
  | nil => rfl
  | skip _ _ ih => rw [ih, List.flatMap_cons, Position.advance_append]
  | keep _ _ ih => rw [ih, List.flatMap_cons, Position.advance_append]

/-- Among lexemes that are passed no backslash joins nothing. -/
theorem Passes.isJoined (h : Passes p begun opened xs p' begun' opened') : ∀ x ∈ xs, x.isJoined := by
  induction h with
  | nil => exact fun _ hx => nomatch hx
  | skip hreact _ ih =>
    exact List.forall_mem_cons.mpr ⟨isJoined_of_isRead (of_react_skip (hreact true)).2.2, ih⟩
  | keep hreact _ ih =>
    refine List.forall_mem_cons.mpr ⟨?_, ih⟩
    simp [Lexeme.isJoined, (of_react_keep (hreact true)).1]

/-- What follows lexemes that are passed decides whether the statement can be read. -/
theorem Passes.succeeds_iff (h : Passes p begun opened xs p' begun' opened')
    (taken consumed : Nat) (more : List Lexeme) :
    Succeeds p begun opened taken consumed (xs ++ more) ↔
      Succeeds p' begun' opened' (taken + (xs.flatMap Lexeme.text).length)
        (consumed + byteLength (xs.flatMap Lexeme.text)) more := by
  induction h generalizing taken consumed with
  | nil => rfl
  | skip hreact _ ih =>
    rw [List.cons_append, Succeeds, ofLexemes, hreact, List.flatMap_cons, List.length_append,
      byteLength_append, ← Nat.add_assoc, ← Nat.add_assoc, ← ih]
    rfl
  | keep hreact _ ih =>
    rw [List.cons_append, Succeeds, ofLexemes, hreact, List.flatMap_cons, List.length_append,
      byteLength_append, ← Nat.add_assoc, ← Nat.add_assoc, ← ih]
    constructor
    · rintro ⟨s, hs⟩
      obtain ⟨s', hs', -⟩ := of_map_cons hs
      exact ⟨s', hs'⟩
    · rintro ⟨s, hs⟩
      exact ⟨_, congrArg (Except.map _) hs⟩

/-- What is open after lexemes was open before them, or one of them opens it. -/
theorem Passes.placed {place : Position → Prop} (h : Passes p begun opened xs p' begun' opened')
    (hopened : ∀ bracket ∈ opened, place bracket.2)
    (hplaces : ∀ ys x zs shape, xs = ys ++ x :: zs → x.kind = .token (.opening shape) →
      place (p.advance (ys.flatMap Lexeme.text))) : ∀ bracket ∈ opened', place bracket.2 := by
  have hnext : ∀ {p : Position} {x : Lexeme} {xs : List Lexeme},
      (∀ ys y zs shape, x :: xs = ys ++ y :: zs → y.kind = .token (.opening shape) →
        place (p.advance (ys.flatMap Lexeme.text))) →
      ∀ ys y zs shape, xs = ys ++ y :: zs → y.kind = .token (.opening shape) →
        place ((p.advance x.text).advance (ys.flatMap Lexeme.text)) := by
    rintro p x _ hplaces ys y zs shape rfl hy
    rw [← Position.advance_append, ← List.flatMap_cons]
    exact hplaces (x :: ys) y zs shape rfl hy
  induction h with
  | nil => exact hopened
  | skip _ _ ih => exact ih hopened (hnext hplaces)
  | keep hreact _ ih =>
    refine ih (fun bracket hb => ?_) (hnext hplaces)
    rcases opened_of_react_keep (hreact true) bracket hb with hold | ⟨hp, hopening⟩
    · exact hopened bracket hold
    · rw [hp]
      exact hplaces [] _ _ bracket.1 rfl hopening

/-- A fault comes after lexemes that are passed: at the end of the text, or at the next lexeme. -/
theorem exists_passes_of_error {taken consumed : Nat} {e : LexError}
    (h : ofLexemes p begun opened taken consumed xs = .error e) :
    ∃ before rest p' begun' opened', xs = before ++ rest ∧
      Passes p begun opened before p' begun' opened' ∧
      (rest = [] ∧ (∃ shape outer, opened' = (shape, e.position) :: outer) ∨
        ∃ x after, rest = x :: after ∧
          react x.kind after.isEmpty p' begun' opened' = .fail e.fault ∧ e.position = p') := by
  induction xs generalizing p begun opened taken consumed with
  | nil =>
    cases opened with
    | nil => cases h
    | cons bracket outer =>
      cases h
      exact ⟨[], [], p, begun, _, rfl, .nil, .inl ⟨rfl, bracket.1, outer, rfl⟩⟩
  | cons x rest ih =>
    rw [ofLexemes] at h
    cases hreact : react x.kind rest.isEmpty p begun opened with
    | skip =>
      rw [hreact] at h
      obtain ⟨before, after, p', begun', opened', rfl, hpasses, hend⟩ := ih h
      have hx : x.isJoined := isJoined_of_isRead (of_react_skip hreact).2.2
      have hskip : ∀ last, react x.kind last p begun opened = .skip := fun last => by
        rw [react_last hx last, hreact]
      exact ⟨x :: before, after, p', begun', opened', rfl, .skip hskip hpasses, hend⟩
    | keep kind opened₁ =>
      rw [hreact] at h
      have hx : x.isJoined := by simp [Lexeme.isJoined, (of_react_keep hreact).1]
      obtain ⟨before, after, p', begun', opened', rfl, hpasses, hend⟩ := ih (of_map_error h)
      have hkeep : ∀ last, react x.kind last p begun opened = .keep kind opened₁ := fun last => by
        rw [react_last hx last, hreact]
      exact ⟨x :: before, after, p', begun', opened', rfl, .keep hkeep hpasses, hend⟩
    | stop =>
      rw [hreact] at h
      cases h
    | fail fault =>
      rw [hreact] at h
      cases h
      exact ⟨[], x :: rest, p, begun, opened, rfl, .nil, .inr ⟨x, rest, rfl, hreact, rfl⟩⟩

/-- If a bracket is open when all lexemes are passed, then the statement is incomplete there. -/
theorem Passes.ofLexemes_end {shape : Bracket} {q : Position} {outer : List Open}
    (h : Passes p begun opened xs p' begun' ((shape, q) :: outer)) (taken consumed : Nat) :
    ofLexemes p begun opened taken consumed xs = .error ⟨.incomplete, q⟩ := by
  generalize hopened' : (shape, q) :: outer = opened' at h
  induction h generalizing taken consumed with
  | nil =>
    subst hopened'
    rfl
  | skip hreact _ ih =>
    rw [ofLexemes, hreact]
    exact ih _ _ hopened'
  | keep hreact _ ih =>
    rw [ofLexemes, hreact]
    exact congrArg (Except.map _) (ih _ _ hopened')

end Passes

/-! ## Closing brackets -/

/-- A round bracket that closes whatever is open. -/
def closer : Lexeme := ⟨[')'], .token (.closing .round)⟩

/-- Closing brackets are lexemes one by one. -/
theorem stream_closers (count : Nat) :
    stream (List.replicate count ')') = List.replicate count closer := by
  induction count with
  | zero => rw [List.replicate_zero, stream]; rfl
  | succ count ih =>
    rw [List.replicate_succ, stream, List.replicate_succ]
    exact congrArg (closer :: ·) ih

/-- As many brackets as are open close a statement. -/
theorem succeeds_closers (p : Position) (begun : Bool) (opened : List Open) (taken consumed : Nat) :
    Succeeds p begun opened taken consumed (List.replicate opened.length closer) := by
  induction opened generalizing p begun taken consumed with
  | nil => exact ⟨_, rfl⟩
  | cons bracket outer ih =>
    obtain ⟨s, hs⟩ := ih (p.advance closer.text) true (taken + closer.text.length)
      (consumed + byteLength closer.text)
    exact ⟨_, congrArg (Except.map _) hs⟩

/-- A line feed and as many closing brackets as are open end a statement. -/
theorem succeeds_lineFeed_closers (p : Position) (begun : Bool) (opened : List Open)
    (taken consumed : Nat) :
    Succeeds p begun opened taken consumed (lineFeed :: List.replicate opened.length closer) := by
  cases opened with
  | nil =>
    cases begun with
    | false => exact ⟨_, rfl⟩
    | true => exact ⟨_, rfl⟩
  | cons bracket outer =>
    obtain ⟨shape, q⟩ := bracket
    have hclosers := succeeds_closers (p.advance lineFeed.text)
    cases shape with
    | curly =>
      obtain ⟨s, hs⟩ := hclosers true ((.curly, q) :: outer) (taken + lineFeed.text.length)
        (consumed + byteLength lineFeed.text)
      exact ⟨_, congrArg (Except.map _) hs⟩
    | round => exact hclosers begun ((.round, q) :: outer) _ _
    | square => exact hclosers begun ((.square, q) :: outer) _ _

/-! ## More text -/

/-- The lexemes of a text from one of them on are those of what is left of it. -/
theorem exists_of_stream {text : List Char} {ys zs : List Lexeme} {x : Lexeme}
    (h : stream text = ys ++ x :: zs) :
    ∃ c rest, text = ys.flatMap Lexeme.text ++ c :: rest ∧ Lexeme.first c rest = x ∧
      stream (Lexeme.after c rest) = zs := by
  have hdrop := stream_drop h
  cases hleft : text.drop (ys.flatMap Lexeme.text).length with
  | nil =>
    rw [hleft, stream] at hdrop
    cases hdrop
  | cons c rest =>
    rw [hleft, stream] at hdrop
    injection hdrop with hfirst hafter
    refine ⟨c, rest, ?_, hfirst, hafter⟩
    rw [← hleft]
    exact (take_flatMap h ▸ List.take_append_drop _ text).symm

/-- Only a quote without its end and a backslash at the end of the text are incomplete. -/
theorem of_react_incomplete {x : Lexeme} {last begun : Bool} {p : Position} {opened : List Open}
    (h : react x.kind last p begun opened = .fail .incomplete) :
    x.kind = .invalid .incomplete ∨ x.kind = .continuation false ∧ last := by
  rcases of_react_fail h with hkind | ⟨hkind, hfault⟩
  · exact .inl hkind
  · cases last with
    | true => exact .inr ⟨hkind, rfl⟩
    | false => cases hfault

section More

variable {origin p : Position} {begun : Bool} {opened : List Open} {before : List Lexeme}
  {rest : List Char}

/-- A text that ends in open brackets is completed on the next line. -/
theorem completes_brackets {text : List Char}
    (h : Passes origin false [] (stream text) p begun opened) :
    ∃ more s, first (text ++ more) origin = .ok s := by
  refine ⟨'\n' :: List.replicate opened.length ')', ?_⟩
  have hclosed := (h.succeeds_iff 0 0 (lineFeed :: List.replicate opened.length closer)).mpr
    (succeeds_lineFeed_closers p begun opened _ _)
  obtain ⟨s, hs⟩ := hclosed
  refine ⟨s, ?_⟩
  rw [first_eq, stream_append_lineFeed _ _ h.isJoined, stream_closers]
  exact hs

/-- If lexemes before a border character are passed, then the character and what follows it decide
whether the statement can be read. -/
theorem first_append_iff {b : Char} (hb : isBorder b)
    (h : Passes origin false [] before p begun opened)
    (hstream : stream (before.flatMap Lexeme.text ++ b :: rest) = before ++ stream (b :: rest))
    (more : List Char) :
    (∃ s, first (before.flatMap Lexeme.text ++ b :: rest ++ more) origin = .ok s) ↔
      Succeeds p begun opened (0 + (before.flatMap Lexeme.text).length)
        (0 + byteLength (before.flatMap Lexeme.text)) (stream (b :: (rest ++ more))) := by
  rw [← h.succeeds_iff, ← stream_before hb hstream rfl (rest ++ more), List.append_assoc,
    List.cons_append]
  simp only [first_eq]
  rfl

/-- A text that ends in a backslash is completed on the next line. -/
theorem completes_slash (h : Passes origin false [] before p begun opened)
    (hstream : stream (before.flatMap Lexeme.text ++ '\\' :: rest) = before ++ stream ('\\' :: rest))
    (hkind : (rule '\\' rest).2 = .continuation false) (hend : Lexeme.after '\\' rest = []) :
    ∃ more s, first (before.flatMap Lexeme.text ++ '\\' :: rest ++ more) origin = .ok s := by
  refine ⟨'\n' :: List.replicate opened.length ')', ?_⟩
  rw [first_append_iff rfl h hstream]
  have hrule : rule '\\' (rest ++ '\n' :: List.replicate opened.length ')') =
      (rest.length + 1, .continuation true) := continuation_joined hkind hend _
  have hafter : Lexeme.after '\\' (rest ++ '\n' :: List.replicate opened.length ')') =
      List.replicate opened.length ')' := by
    rw [Lexeme.after, hrule, List.drop_length_add_append]
    rfl
  have hfirst : (Lexeme.first '\\' (rest ++ '\n' :: List.replicate opened.length ')')).kind =
      .continuation true := congrArg Prod.snd hrule
  rw [stream, hafter, stream_closers, Succeeds, ofLexemes, hfirst]
  exact succeeds_closers ..

/-- A text that ends in an open quote is completed if and only if the quote can be closed. -/
theorem completes_quote_iff (h : Passes origin false [] before p begun opened)
    (hstream : stream (before.flatMap Lexeme.text ++ '"' :: rest) = before ++ stream ('"' :: rest))
    (hkind : (rule '"' rest).2 = .invalid .incomplete) :
    (∃ more s, first (before.flatMap Lexeme.text ++ '"' :: rest ++ more) origin = .ok s) ↔
      ∀ d ∈ rest, isAscii d ∧ d ≠ '\n' := by
  constructor
  · rintro ⟨more, hs⟩ d hd
    by_contra hbad
    obtain ⟨fault, hnever⟩ := quoted_never hkind hd hbad more
    have hfirst : (Lexeme.first '"' (rest ++ more)).kind = .invalid fault := hnever
    rw [first_append_iff rfl h hstream, stream, Succeeds, ofLexemes, hfirst] at hs
    obtain ⟨s, hs⟩ := hs
    cases hs
  · intro hplain
    have hline : InLine rest := by
      rcases of_quoted_incomplete hkind with hline | ⟨body, more, rfl⟩
      · exact hline
      · exact absurd rfl (hplain '\n' (List.mem_append_right _ List.mem_cons_self)).2
    refine ⟨'"' :: '\n' :: List.replicate opened.length ')', ?_⟩
    rw [first_append_iff rfl h hstream]
    have hrule : rule '"' (rest ++ '"' :: '\n' :: List.replicate opened.length ')') =
        (rest.length + 1, .token (.quoted (String.ofList rest))) :=
      quoted_closed hline (fun c hc => (hplain c hc).1) _
    have hafter : Lexeme.after '"' (rest ++ '"' :: '\n' :: List.replicate opened.length ')') =
        '\n' :: List.replicate opened.length ')' := by
      rw [Lexeme.after, hrule, List.drop_length_add_append]
      rfl
    have hfirst : (Lexeme.first '"' (rest ++ '"' :: '\n' :: List.replicate opened.length ')')).kind =
        .token (.quoted (String.ofList rest)) := congrArg Prod.snd hrule
    rw [stream, hafter, stream_lineFeed, stream_closers, Succeeds, ofLexemes, hfirst]
    obtain ⟨s, hs⟩ := succeeds_lineFeed_closers (p.advance _) true opened _ _
    exact ⟨_, congrArg (Except.map _) hs⟩

end More

/-- **An incomplete statement can be completed unless it has a quote that cannot be closed.** -/
theorem incomplete_completes {text : List Char} {origin : Position} {e : LexError}
    (h : first text origin = .error e) (he : e.fault = .incomplete) :
    ∃ before c rest, text = before ++ c :: rest ∧ e.position = origin.advance before ∧
      ((∃ more s, first (text ++ more) origin = .ok s) ↔
        (c = '"' → ∀ d ∈ rest, isAscii d ∧ d ≠ '\n')) := by
  rw [first_eq] at h
  obtain ⟨before, rest, p, begun, opened, hstream, hpasses, hend⟩ := exists_passes_of_error h
  have hp := hpasses.position
  rcases hend with ⟨rfl, shape, outer, rfl⟩ | ⟨x, after, rfl, hreact, hposition⟩
  · -- the bracket that is open is no quote, wherever it stands
    rw [List.append_nil] at hstream
    let place (q : Position) := ∃ before c rest, text = before ++ c :: rest ∧
      q = origin.advance before ∧ c ≠ '"'
    have hplaced : place e.position := by
      have hbrackets : ∀ bracket ∈ (shape, e.position) :: outer, place bracket.2 := by
        refine hpasses.placed (fun _ hb => nomatch hb) ?_
        intro ys x zs shape hsplit hkind
        obtain ⟨c, rest, htext, rfl, -⟩ := exists_of_stream (hstream.trans hsplit)
        exact ⟨_, c, rest, htext, rfl, ne_quote_of_rule_opening hkind⟩
      exact hbrackets _ List.mem_cons_self
    obtain ⟨front, c, rest, htext, hplace, hc⟩ := hplaced
    refine ⟨front, c, rest, htext, hplace, fun _ heq => absurd heq hc, fun _ => ?_⟩
    exact completes_brackets (hstream ▸ hpasses)
  · obtain ⟨c, rest, rfl, rfl, hafter⟩ := exists_of_stream hstream
    have hleft : stream (c :: rest) = Lexeme.first c rest :: after := by rw [stream, hafter]
    rw [← hleft] at hstream
    refine ⟨before.flatMap Lexeme.text, c, rest, rfl, hposition.trans hp, ?_⟩
    rw [he] at hreact
    rcases of_react_incomplete hreact with hkind | ⟨hkind, hlast⟩
    · obtain rfl := of_rule_incomplete hkind
      rw [completes_quote_iff hpasses hstream hkind]
      exact ⟨fun hplain _ => hplain, fun hplain => hplain rfl⟩
    · obtain rfl := of_rule_continuation hkind
      have hend : Lexeme.after '\\' rest = [] := by
        rw [← hafter, isEmpty_stream] at hlast
        exact List.isEmpty_iff.mp hlast
      exact ⟨fun _ heq => (by cases heq), fun _ => completes_slash hpasses hstream hkind hend⟩

/-- A call of which an open bracket and an open quote are there. -/
theorem call_completes :
    first "f(\"ab".toList .start = .error ⟨.incomplete, ⟨2, 1, 3⟩⟩ ∧
      ∃ more s, first ("f(\"ab".toList ++ more) .start = .ok s := by
  have h : first "f(\"ab".toList .start = .error ⟨.incomplete, ⟨2, 1, 3⟩⟩ := by decide +kernel
  obtain ⟨before, c, rest, htext, -, hiff⟩ := incomplete_completes h rfl
  have hplain : ("f(\"ab".toList.all fun d => isAscii d && d != '\n') = true := by decide +kernel
  refine ⟨h, hiff.mpr fun _ d hd => ?_⟩
  have hmem : d ∈ "f(\"ab".toList := by
    rw [htext]
    exact List.mem_append_right _ (List.mem_cons_of_mem c hd)
  simpa using List.all_eq_true.mp hplain d hmem

/-- A quote that is open at the end of its line is incomplete, and nothing completes it. -/
theorem quote_never_completes :
    first "\"abc\n".toList .start = .error ⟨.incomplete, .start⟩ ∧
      ∀ more s, first ("\"abc\n".toList ++ more) .start ≠ .ok s := by
  refine ⟨by decide +kernel, fun more s hs => ?_⟩
  have hkind : (rule '"' "abc\n".toList).2 = .invalid .incomplete := by decide +kernel
  have hpasses : Passes .start false [] [] .start false [] := .nil
  have hplain := (completes_quote_iff hpasses rfl hkind).mp ⟨more, s, hs⟩
  exact (hplain '\n' (by decide)).2 rfl

end Statement

end Abacus
