import Abacus.Prompt.Highlight

/-!
# The bracket at the cursor and its partner

The search for a pair goes through the spans of a line once, with the brackets that are still open
in hand, and ends at the first closing bracket whose pair is at the cursor. Brackets in quoted text
and in comments are no spans of their own and play no part.

**The law** (`Highlight.matchingPair_partner`): in a line with nested brackets each bracket has a
partner, with nested brackets between the two, and a cursor at either of them finds both; a cursor at
no bracket finds nothing.

Nested brackets leave the open ones as they were (`Nested.findPair_append`), so what is found behind
them is what would be found without them. Spans in front of the pair may leave brackets open, but
none that begins at the cursor (`exists_findPair_append`).
-/

namespace Abacus.Highlight

/-- The span is an opening bracket of this shape. -/
def Span.Opens (bracket : Bracket) (span : Span) : Prop := span.kind = .token (.opening bracket)

/-- The span is a closing bracket of this shape. -/
def Span.Closes (bracket : Bracket) (span : Span) : Prop := span.kind = .token (.closing bracket)

/-- The span is a bracket. -/
def Span.IsBracket (span : Span) : Prop := ∃ bracket, span.Opens bracket ∨ span.Closes bracket

/-- The brackets come in pairs of one shape, and between the two of a pair they do as well. -/
inductive Nested : List Span → Prop
  | nil : Nested []
  | other {span : Span} {rest : List Span} : ¬ span.IsBracket → Nested rest → Nested (span :: rest)
  | pair {bracket : Bracket} {left right : Span} {inner rest : List Span} : left.Opens bracket →
      right.Closes bracket → Nested inner → Nested rest → Nested (left :: (inner ++ right :: rest))

/-- Two brackets of one shape with nested brackets between them. -/
def Partners (spans : List Span) (left right : Span) : Prop :=
  ∃ bracket before inner after, spans = before ++ left :: (inner ++ right :: after) ∧
    left.Opens bracket ∧ right.Closes bracket ∧ Nested inner

variable {cursor : Nat} {bracket : Bracket} {span left right : Span} {inner rest : List Span}
  {opened : List (Bracket × Nat)}

/-! ## One span -/

/-- An opening bracket is open from there. -/
theorem findPair_opens (h : span.Opens bracket) :
    findPair cursor (span :: rest) opened =
      findPair cursor rest ((bracket, span.start) :: opened) := by
  simp only [findPair, show span.kind = _ from h]

/-- A closing bracket of the shape of the innermost one closes it, and the two are the answer if the
cursor is at either. -/
theorem findPair_closes (h : span.Closes bracket) (start : Nat) :
    findPair cursor (span :: rest) ((bracket, start) :: opened) =
      if start = cursor ∨ span.start = cursor then some (start, span.start)
      else findPair cursor rest opened := by
  simp only [findPair, show span.kind = _ from h, if_true]

/-- Anything else is passed. -/
theorem findPair_other (h : ¬ span.IsBracket) :
    findPair cursor (span :: rest) opened = findPair cursor rest opened := by
  rw [findPair.eq_def]
  dsimp only
  split
  · next bracket hopens => exact absurd ⟨bracket, .inl hopens⟩ h
  · next bracket _ _ _ hcloses => exact absurd ⟨bracket, .inr hcloses⟩ h
  · rfl

/-! ## Spans away from the cursor -/

/-- Nested brackets away from the cursor are passed over, whatever is open. -/
theorem Nested.findPair_append (h : Nested inner)
    (haway : ∀ span ∈ inner, span.IsBracket → span.start ≠ cursor) (rest : List Span)
    (opened : List (Bracket × Nat)) :
    findPair cursor (inner ++ rest) opened = findPair cursor rest opened := by
  induction h generalizing rest opened with
  | nil => rfl
  | other hspan _ ih =>
    rw [List.cons_append, findPair_other hspan]
    exact ih (fun span hmem => haway span (List.mem_cons_of_mem _ hmem)) rest opened
  | @pair bracket left right inner more hopens hcloses _ _ ihinner ihmore =>
    have hleft : left.start ≠ cursor := haway left List.mem_cons_self ⟨bracket, .inl hopens⟩
    have hright : right.start ≠ cursor := haway right (by simp) ⟨bracket, .inr hcloses⟩
    rw [List.cons_append, List.append_assoc, List.cons_append, findPair_opens hopens,
      ihinner (fun span hmem => haway span (by simp [hmem])), findPair_closes hcloses,
      if_neg (not_or.mpr ⟨hleft, hright⟩)]
    exact ihmore (fun span hmem => haway span (by simp [hmem])) rest opened

/-- The open brackets are away from the cursor. -/
def Away (cursor : Nat) (opened : List (Bracket × Nat)) : Prop := ∀ entry ∈ opened, entry.2 ≠ cursor

/-- A span away from the cursor opens, closes or changes nothing. -/
theorem exists_findPair_cons (hspan : span.IsBracket → span.start ≠ cursor)
    (hopened : Away cursor opened) :
    ∃ opened', Away cursor opened' ∧
      ∀ rest, findPair cursor (span :: rest) opened = findPair cursor rest opened' := by
  by_cases hbracket : span.IsBracket
  · have hstart := hspan hbracket
    obtain ⟨bracket, hopens | hcloses⟩ := hbracket
    · exact ⟨_, List.forall_mem_cons.mpr ⟨hstart, hopened⟩, fun _ => findPair_opens hopens⟩
    · cases opened with
      | nil =>
        refine ⟨[], hopened, ?_⟩
        intro rest
        simp only [findPair, show span.kind = _ from hcloses]
      | cons entry outer =>
        obtain ⟨innermost, start⟩ := entry
        obtain ⟨hinnermost, houter⟩ := List.forall_mem_cons.mp hopened
        by_cases hshape : innermost = bracket
        · subst hshape
          refine ⟨outer, houter, ?_⟩
          intro rest
          rw [findPair_closes hcloses, if_neg (not_or.mpr ⟨hinnermost, hstart⟩)]
        · refine ⟨_, hopened, ?_⟩
          intro rest
          simp only [findPair, show span.kind = _ from hcloses, if_neg hshape]
  · exact ⟨opened, hopened, fun _ => findPair_other hbracket⟩

/-- Spans away from the cursor leave some brackets open, and nothing is found among them. -/
theorem exists_findPair_append {before : List Span}
    (haway : ∀ span ∈ before, span.IsBracket → span.start ≠ cursor)
    (hopened : Away cursor opened) :
    ∃ opened', ∀ rest, findPair cursor (before ++ rest) opened = findPair cursor rest opened' := by
  induction before generalizing opened with
  | nil => exact ⟨opened, fun _ => rfl⟩
  | cons span before ih =>
    obtain ⟨hspan, hbefore⟩ := List.forall_mem_cons.mp haway
    obtain ⟨opened', haway', hstep⟩ := exists_findPair_cons hspan hopened
    obtain ⟨opened'', hrest⟩ := ih hbefore haway'
    refine ⟨opened'', ?_⟩
    intro rest
    rw [List.cons_append, hstep, hrest]

/-! ## Partners -/

/-- Partners stay partners among more spans. -/
theorem Partners.within {spans : List Span} (h : Partners spans left right) (front back : List Span) :
    Partners (front ++ spans ++ back) left right := by
  obtain ⟨bracket, before, inner, after, rfl, hopens, hcloses, hinner⟩ := h
  exact ⟨bracket, front ++ before, inner, after ++ back, by simp, hopens, hcloses, hinner⟩

/-- Every nested bracket has a partner. -/
theorem Nested.exists_partner {spans : List Span} (h : Nested spans) (hmem : span ∈ spans)
    (hbracket : span.IsBracket) :
    ∃ left right, Partners spans left right ∧ (span = left ∨ span = right) := by
  induction h with
  | nil => cases hmem
  | @other first rest hfirst _ ih =>
    rcases List.mem_cons.mp hmem with rfl | hrest
    · exact absurd hbracket hfirst
    · obtain ⟨left, right, hpartners, hspan⟩ := ih hrest
      exact ⟨left, right, by simpa using hpartners.within [first] [], hspan⟩
  | @pair bracket first last inner rest hopens hcloses hinner _ ihinner ihrest =>
    have hpair : Partners (first :: (inner ++ last :: rest)) first last :=
      ⟨bracket, [], inner, rest, rfl, hopens, hcloses, hinner⟩
    simp only [List.mem_cons, List.mem_append] at hmem
    rcases hmem with rfl | hin | rfl | hin
    · exact ⟨span, last, hpair, .inl rfl⟩
    · obtain ⟨left, right, hpartners, hspan⟩ := ihinner hin
      exact ⟨left, right, by simpa using hpartners.within [first] (last :: rest), hspan⟩
    · exact ⟨first, span, hpair, .inr rfl⟩
    · obtain ⟨left, right, hpartners, hspan⟩ := ihrest hin
      exact ⟨left, right, by simpa using hpartners.within (first :: (inner ++ [last])) [], hspan⟩

/-- Spans begin one after the other. -/
def Ordered (spans : List Span) : Prop := spans.Pairwise fun x y => x.start < y.start

/-- A cursor at one of two partners finds both. -/
theorem Partners.findPair {spans : List Span} (h : Partners spans left right)
    (hordered : Ordered spans) (hcursor : cursor = left.start ∨ cursor = right.start) :
    left.start < right.start ∧ findPair cursor spans [] = some (left.start, right.start) := by
  obtain ⟨bracket, before, inner, after, rfl, hopens, hcloses, hinner⟩ := h
  obtain ⟨-, hfrom, hbefore⟩ := List.pairwise_append.mp hordered
  obtain ⟨hleft, hpast⟩ := List.pairwise_cons.mp hfrom
  obtain ⟨-, -, hright⟩ := List.pairwise_append.mp hpast
  have hlt : left.start < right.start := hleft right (by simp)
  have haway : ∀ span ∈ before, span.IsBracket → span.start ≠ cursor := by
    intro span hmem _
    have := hbefore span hmem left List.mem_cons_self
    omega
  have hinside : ∀ span ∈ inner, span.IsBracket → span.start ≠ cursor := by
    intro span hmem _
    have := hleft span (by simp [hmem])
    have := hright span hmem right List.mem_cons_self
    omega
  refine ⟨hlt, ?_⟩
  obtain ⟨opened, hrest⟩ := exists_findPair_append haway (List.forall_mem_nil _)
  rw [hrest, findPair_opens hopens, hinner.findPair_append hinside, findPair_closes hcloses,
    if_pos (hcursor.imp Eq.symm Eq.symm)]

/-! ## The law -/

/-- No span starts before the first one. -/
theorem start_of_mem_spansFrom {offset : Nat} {lexemes : List Lexeme}
    (h : span ∈ spansFrom offset lexemes) : offset ≤ span.start := by
  induction lexemes generalizing offset with
  | nil => cases h
  | cons x rest ih =>
    rw [spansFrom] at h
    split at h
    · have := ih h
      omega
    · rcases List.mem_cons.mp h with rfl | hrest
      · exact Nat.le_refl _
      · have := ih hrest
        omega

/-- Spans start one behind the other. -/
theorem ordered_spansFrom {offset : Nat} {lexemes : List Lexeme} (h : ∀ x ∈ lexemes, x.text ≠ []) :
    Ordered (spansFrom offset lexemes) := by
  induction lexemes generalizing offset with
  | nil => exact .nil
  | cons x rest ih =>
    obtain ⟨hx, hrest⟩ := List.forall_mem_cons.mp h
    rw [spansFrom]
    split
    · exact ih hrest
    · refine .cons ?_ (ih hrest)
      intro span hmem
      have hstart := start_of_mem_spansFrom hmem
      have hpos := byteLength_pos hx
      show offset < span.start
      omega

/-- So do the spans of a line. -/
theorem ordered_spans (line : List Char) : Ordered (spans line) :=
  ordered_spansFrom fun _ => Lexeme.text_ne_nil_of_mem_stream

/-- **The cursor at a bracket finds it and its partner.** In a line whose brackets are nested, each
bracket has a partner; with the cursor at either one, the answer is where the two begin, the left one
first. It is so for any two partners, and with the cursor at no bracket there is no answer. -/
theorem matchingPair_partner {line : List Char} (h : Nested (spans line)) :
    (∀ span ∈ spans line, span.IsBracket → ∃ left right,
      Partners (spans line) left right ∧ (span = left ∨ span = right) ∧ left.start < right.start ∧
        matchingPair line (span.start + 1) = some (left.start, right.start)) ∧
    (∀ left right, Partners (spans line) left right →
      matchingPair line (left.start + 1) = some (left.start, right.start) ∧
        matchingPair line (right.start + 1) = some (left.start, right.start)) ∧
    ∀ position, (∀ span ∈ spans line, span.IsBracket → position ≠ span.start + 1) →
      matchingPair line position = none := by
  have hordered := ordered_spans line
  refine ⟨?_, ?_, ?_⟩
  · intro span hmem hbracket
    obtain ⟨left, right, hpartners, hspan⟩ := h.exists_partner hmem hbracket
    have hcursor : span.start = left.start ∨ span.start = right.start :=
      hspan.imp (congrArg Span.start) (congrArg Span.start)
    exact ⟨left, right, hpartners, hspan, hpartners.findPair hordered hcursor⟩
  · intro left right hpartners
    exact ⟨(hpartners.findPair hordered (.inl rfl)).2, (hpartners.findPair hordered (.inr rfl)).2⟩
  · intro position haway
    cases position with
    | zero => rfl
    | succ cursor =>
      have hnone : ∀ span ∈ spans line, span.IsBracket → span.start ≠ cursor := by
        intro span hmem hbracket hstart
        exact haway span hmem hbracket (congrArg Nat.succ hstart.symm)
      obtain ⟨opened, hrest⟩ := exists_findPair_append hnone (List.forall_mem_nil _)
      rw [matchingPair, ← List.append_nil (spans line), hrest, findPair]

/-- A vector within round brackets, with the cursor at the closing one and at the bracket that stands
in a text. -/
theorem matchingPair_partner_listed :
    let line := "f([1, \")\"], é) # ]".toList
    Nested (spans line) ∧ Partners (spans line) ⟨1, 2, .token (.opening .round)⟩
        ⟨14, 15, .token (.closing .round)⟩ ∧
      matchingPair line 15 = some (1, 14) ∧ matchingPair line 8 = none := by
  intro line
  have hspans : spans line = [⟨0, 1, .token (.identifier "f")⟩, ⟨1, 2, .token (.opening .round)⟩,
      ⟨2, 3, .token (.opening .square)⟩, ⟨3, 4, .token (.number (.integer 1))⟩,
      ⟨4, 5, .token .comma⟩, ⟨6, 9, .token (.quoted ")")⟩, ⟨9, 10, .token (.closing .square)⟩,
      ⟨10, 11, .token .comma⟩, ⟨12, 14, .invalid (.unexpected 'é')⟩,
      ⟨14, 15, .token (.closing .round)⟩] := by decide +kernel
  have hvector : Nested [⟨3, 4, .token (.number (.integer 1))⟩, ⟨4, 5, .token .comma⟩,
      ⟨6, 9, .token (.quoted ")")⟩] := .other nofun (.other nofun (.other nofun .nil))
  have hrest : Nested [⟨10, 11, .token .comma⟩, ⟨12, 14, .invalid (.unexpected 'é')⟩] :=
    .other nofun (.other nofun .nil)
  have hinside := @Nested.pair .square ⟨2, 3, _⟩ ⟨9, 10, _⟩ _ _ rfl rfl hvector hrest
  have hnested : Nested (spans line) :=
    hspans ▸ .other nofun (@Nested.pair .round ⟨1, 2, _⟩ ⟨14, 15, _⟩ _ [] rfl rfl hinside .nil)
  have hpartners : Partners (spans line) ⟨1, 2, .token (.opening .round)⟩
      ⟨14, 15, .token (.closing .round)⟩ := by
    refine ⟨.round, [⟨0, 1, .token (.identifier "f")⟩], _, [], ?_, rfl, rfl, hinside⟩
    rw [hspans]
    rfl
  have haway : ∀ span ∈ spans line, 8 ≠ span.start + 1 := by
    rw [hspans]
    decide
  obtain ⟨-, hanswer, hnone⟩ := matchingPair_partner hnested
  exact ⟨hnested, hpartners, (hanswer _ _ hpartners).2,
    hnone 8 fun span hmem _ => haway span hmem⟩

end Abacus.Highlight
