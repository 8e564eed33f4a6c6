import Abacus.Proofs.Discipline.Programs
import Abacus.Prompt.Session
import Mathlib.Logic.Relation

/-!
# Texts that the prompt takes as complete

The prompt checks a text before it runs it. The check goes from statement to statement without
looking at what they say; the run reads a statement, refuses it or evaluates it, and only then reads
the next one. Both come by the same places, so what the check says of the text is what the run finds
if it gets that far.

**The law** (`Prompt.validation_agrees`): the check comes to an end; a text that it takes as valid
never fails as incomplete; and a text that it takes as incomplete fails, with the fault that the
check has met or because one of the statements before it fails.
-/

namespace Abacus

namespace Prompt

open Statement (first)

/-! ## The check -/

/-- Where the check of a text has come to: what is left of it, and where that stands. -/
abbrev Place := List Char × Position

/-- A round of the check goes on. -/
def Goes (earlier later : Place) : Prop := round earlier.1 earlier.2 = .inr later

/-- **The check comes to an end.** -/
theorem wellFounded_goes : WellFounded fun later earlier => Goes earlier later :=
  Subrelation.wf (fun h => length_lt_of_round h) (measure fun place : Place => place.1.length).wf

/-- A statement that is complete leaves the verdict to what is behind it. -/
theorem validate_of_goes {earlier later : Place} (h : Goes earlier later) :
    validate earlier.1 earlier.2 = validate later.1 later.2 := by
  rw [validate]
  split
  · next verdict hround =>
    rw [Goes, hround] at h
    cases h
  · next place hround =>
    rw [Goes, hround] at h
    cases h
    rfl

/-- So do several. -/
theorem validate_of_rounds {earlier later : Place} (h : Relation.ReflTransGen Goes earlier later) :
    validate earlier.1 earlier.2 = validate later.1 later.2 := by
  induction h with
  | refl => rfl
  | tail _ hgoes ih => exact ih.trans (validate_of_goes hgoes)

variable {text : List Char} {origin : Position} {e : LexError} {s : Statement}

/-- What is left of a text behind a statement. -/
def behind (text : List Char) (origin : Position) (s : Statement) : Place :=
  (text.drop s.taken, origin.advance (text.take s.taken))

/-- The check goes on behind every statement that has tokens. -/
theorem goes_of_first (h : first text origin = .ok s) (hne : s.tokens ≠ []) :
    Goes (text, origin) (behind text origin s) := by
  have htaken : s.taken ≠ 0 := Nat.ne_of_gt ((Statement.gather_taken h).2 hne)
  unfold Goes round
  simp only [h]
  rw [if_neg (not_or.mpr ⟨htaken, hne⟩)]
  rfl

/-- A round that goes on has read a statement with tokens. -/
theorem of_goes {later : Place} (h : Goes (text, origin) later) :
    ∃ s, first text origin = .ok s ∧ s.tokens ≠ [] ∧ later = behind text origin s := by
  unfold Goes round at h
  cases hfirst : first text origin with
  | error e =>
    simp only [hfirst] at h
    cases h
  | ok s =>
    simp only [hfirst] at h
    split at h
    · cases h
    · next hgoes =>
      cases h
      exact ⟨s, rfl, (not_or.mp hgoes).2, rfl⟩

/-- A lexical fault ends the rounds with a verdict. -/
theorem round_of_error (h : first text origin = .error e) :
    round text origin = .inl (if e.fault = .incomplete then .incomplete else .valid) := by
  unfold round
  simp only [h]

/-- A text that stops short of its end is incomplete. -/
theorem validate_of_error (h : first text origin = .error e) (he : e.fault = .incomplete) :
    validate text origin = .incomplete := by
  have hround := round_of_error h
  rw [if_pos he] at hround
  rw [validate]
  split
  · next verdict hverdict =>
    rw [hround] at hverdict
    cases hverdict
    rfl
  · next place hplace =>
    rw [hround] at hplace
    cases hplace

/-- The check takes a text as incomplete only because of a fault that it comes to. -/
theorem exists_of_incomplete (h : validate text origin = .incomplete) :
    ∃ place e, Relation.ReflTransGen Goes (text, origin) place ∧
      first place.1 place.2 = .error e ∧ e.fault = .incomplete := by
  induction text, origin using validate.induct with
  | case1 text origin verdict hround =>
    have hverdict : validate text origin = verdict := by
      rw [validate]
      split
      · next hround' => rw [hround] at hround'; cases hround'; rfl
      · next hround' => rw [hround] at hround'; cases hround'
    obtain rfl : verdict = .incomplete := hverdict.symm.trans h
    cases hfirst : first text origin with
    | error e =>
      refine ⟨(text, origin), e, .refl, hfirst, ?_⟩
      by_contra hother
      rw [round_of_error hfirst, if_neg hother] at hround
      cases hround
    | ok s =>
      unfold round at hround
      simp only [hfirst] at hround
      split at hround <;> cases hround
  | case2 text origin later hround ih =>
    have hgoes : Goes (text, origin) later := hround
    obtain ⟨place, e, hrounds, hplace, he⟩ := ih ((validate_of_goes hgoes).symm.trans h)
    exact ⟨place, e, .head hgoes hrounds, hplace, he⟩

/-! ## The run -/

/-- What a statement says can be refused by the grammar only. -/
theorem expr_error {error : ReadError} (h : s.expr = .error error) :
    ∃ e, error = .grammatical e := by
  unfold Statement.expr at h
  cases hread : Expr.ofTokens s.tokens s.stop with
  | error e =>
    rw [hread] at h
    cases h
    exact ⟨e, rfl⟩
  | ok expr =>
    rw [hread] at h
    cases h

/-- Runs the statements of a text as they are read. -/
def interleave (call : Call) (scope : ScopeId) (text : List Char) (origin : Position)
    (last : Option Value) : EStateM SourceError Store (Option Value) := fun σ =>
  match _h : first text origin with
  | .error e => .error (.read (.lexical e)) σ
  | .ok s =>
    if _ht : s.tokens = [] then .ok last σ
    else
      match s.expr with
      | .error e => .error (.read e) σ
      | .ok expr =>
        match Action.evaluate call expr scope σ with
        | .error interruption σ => .error (.run interruption) σ
        | .ok value σ =>
          interleave call scope (text.drop s.taken) (origin.advance (text.take s.taken)) (some value) σ
termination_by text.length
decreasing_by exact Statement.length_drop_lt _h _ht

section Run

variable {call : Call} {scope : ScopeId} {last : Option Value} {σ σ' : Store} {expr : Expr}

/-- A text that cannot be split runs nothing more. -/
theorem interleave_of_error (h : first text origin = .error e) :
    interleave call scope text origin last σ = .error (.read (.lexical e)) σ := by
  rw [interleave]
  split
  · next e' h' => rw [h] at h'; cases h'; rfl
  · next s h' => rw [h] at h'; cases h'

/-- Its first statement is parsed and run before the next one is read. -/
theorem interleave_of_first (h : first text origin = .ok s) :
    interleave call scope text origin last σ =
      if s.tokens = [] then .ok last σ
      else
        match s.expr with
        | .error e => .error (.read e) σ
        | .ok expr =>
          match Action.evaluate call expr scope σ with
          | .error interruption σ => .error (.run interruption) σ
          | .ok value σ =>
            interleave call scope (behind text origin s).1 (behind text origin s).2 (some value) σ := by
  rw [interleave]
  split
  · next e h' => rw [h] at h'; cases h'
  · next s' h' =>
    rw [h] at h'
    cases h'
    rfl

/-- What a script does after some value, read from a text, is what the text does. -/
theorem evaluate_read (call : Call) (scope : ScopeId) (last : Option Value) (σ : Store) :
    (match Script.evaluate call scope (Script.read text origin).entries last σ with
      | .error interruption σ => .error (.run interruption) σ
      | .ok value σ =>
        match (Script.read text origin).fault with
        | some e => .error (.read e) σ
        | none => .ok value σ) =
      interleave call scope text origin last σ := by
  induction text, origin using Script.read.induct generalizing last σ with
  | case1 text origin e hfirst =>
    rw [Script.read_of_error hfirst, interleave_of_error hfirst]
    rfl
  | case2 text origin s hfirst hempty =>
    rw [Script.read_of_first hfirst, Script.begin, if_pos hempty, interleave_of_first hfirst,
      if_pos hempty]
    rfl
  | case3 text origin s hfirst hne e hexpr =>
    rw [Script.read_of_first hfirst, Script.begin, if_neg hne, hexpr, interleave_of_first hfirst,
      if_neg hne, hexpr]
    rfl
  | case4 text origin s hfirst hne expr hexpr ih =>
    rw [Script.read_of_first hfirst, Script.begin, if_neg hne, hexpr, interleave_of_first hfirst,
      if_neg hne, hexpr]
    dsimp only
    rw [Script.evaluate]
    cases heval : Action.evaluate call expr scope σ with
    | error interruption σ' => rw [Action.bind_error heval]
    | ok value σ' =>
      rw [Action.bind_ok heval]
      exact ih (some value) σ'

/-- **A source runs as its statements are read.** -/
theorem run_eq_interleave (fuel : Nat) :
    (Script.read text origin).run fuel scope σ =
      interleave (Action.apply fuel) scope text origin none σ :=
  evaluate_read (Action.apply fuel) scope none σ

/-- A run meets a fault of a text only where the check comes by. -/
theorem rounds_of_interleave
    (h : interleave call scope text origin last σ = .error (.read (.lexical e)) σ') :
    ∃ place, Relation.ReflTransGen Goes (text, origin) place ∧ first place.1 place.2 = .error e := by
  induction text, origin using Script.read.induct generalizing last σ with
  | case1 text origin e' hfirst =>
    rw [interleave_of_error hfirst] at h
    cases h
    exact ⟨(text, origin), .refl, hfirst⟩
  | case2 text origin s hfirst hempty =>
    rw [interleave_of_first hfirst, if_pos hempty] at h
    cases h
  | case3 text origin s hfirst hne e' hexpr =>
    rw [interleave_of_first hfirst, if_neg hne, hexpr] at h
    cases h
    obtain ⟨error, herror⟩ := expr_error hexpr
    cases herror
  | case4 text origin s hfirst hne expr hexpr ih =>
    rw [interleave_of_first hfirst, if_neg hne, hexpr] at h
    dsimp only at h
    cases heval : Action.evaluate call expr scope σ with
    | error interruption σ₁ =>
      rw [heval] at h
      cases h
    | ok value σ₁ =>
      rw [heval] at h
      obtain ⟨place, hrounds, hplace⟩ := ih h
      exact ⟨place, .head (goes_of_first hfirst hne) hrounds, hplace⟩

/-! ## Failing before -/

/-- A statement fails before the text has a fault: the grammar refuses it, or a fault or an exit ends
its evaluation, and the statements before it have values. -/
inductive Fails (call : Call) (scope : ScopeId) : Place → Store → SourceError → Store → Prop
  | refused {text : List Char} {origin : Position} {s : Statement} {σ : Store} {e : ParseError} :
    first text origin = .ok s → s.tokens ≠ [] → s.expr = .error (.grammatical e) →
    Fails call scope (text, origin) σ (.read (.grammatical e)) σ
  | fault {text : List Char} {origin : Position} {s : Statement} {σ σ' : Store} {expr : Expr}
    {e : RuntimeError} :
    first text origin = .ok s → s.tokens ≠ [] → s.expr = .ok expr →
    Action.evaluate call expr scope σ = .error (.fault e) σ' →
    Fails call scope (text, origin) σ (.run (.fault e)) σ'
  | exit {text : List Char} {origin : Position} {s : Statement} {σ σ' : Store} {expr : Expr}
    {code : Int} :
    first text origin = .ok s → s.tokens ≠ [] → s.expr = .ok expr →
    Action.evaluate call expr scope σ = .error (.exit code) σ' →
    Fails call scope (text, origin) σ (.run (.exit code)) σ'
  | later {text : List Char} {origin : Position} {s : Statement} {σ σ' σ'' : Store} {expr : Expr}
    {value : Value} {error : SourceError} :
    first text origin = .ok s → s.tokens ≠ [] → s.expr = .ok expr →
    Action.evaluate call expr scope σ = .ok value σ' →
    Fails call scope (behind text origin s) σ' error σ'' →
    Fails call scope (text, origin) σ error σ''

/-- A run either gets to a fault that the check comes to, or is ended by a statement before. -/
theorem interleave_of_rounds {place : Place}
    (hrounds : Relation.ReflTransGen Goes (text, origin) place)
    (h : first place.1 place.2 = .error e) (fuel : Nat) (last : Option Value) (σ : Store) :
    (∃ σ', interleave (Action.apply fuel) scope text origin last σ = .error (.run .outOfFuel) σ') ∨
      ∃ error σ', interleave (Action.apply fuel) scope text origin last σ = .error error σ' ∧
        (error = .read (.lexical e) ∨ Fails (Action.apply fuel) scope (text, origin) σ error σ') := by
  generalize hstart : (text, origin) = start at hrounds
  induction hrounds using Relation.ReflTransGen.head_induction_on generalizing text origin last σ with
  | refl =>
    subst hstart
    exact .inr ⟨_, σ, interleave_of_error h, .inl rfl⟩
  | head hgoes _ ih =>
    subst hstart
    obtain ⟨s, hfirst, hne, rfl⟩ := of_goes hgoes
    rw [interleave_of_first hfirst, if_neg hne]
    cases hexpr : s.expr with
    | error error =>
      obtain ⟨error, rfl⟩ := expr_error hexpr
      exact .inr ⟨_, σ, rfl, .inr (.refused hfirst hne hexpr)⟩
    | ok expr =>
      dsimp only
      cases heval : Action.evaluate (Action.apply fuel) expr scope σ with
      | error interruption σ' =>
        cases interruption with
        | fault error => exact .inr ⟨_, σ', rfl, .inr (.fault hfirst hne hexpr heval)⟩
        | exit code => exact .inr ⟨_, σ', rfl, .inr (.exit hfirst hne hexpr heval)⟩
        | outOfFuel => exact .inl ⟨σ', rfl⟩
        | misapplied => exact absurd heval (Action.evaluate_ne_misapplied fuel expr scope σ σ')
      | ok value σ' =>
        refine (ih (some value) σ' rfl).imp_right ?_
        rintro ⟨error, σ'', hrun, hend⟩
        exact ⟨error, σ'', hrun, hend.imp_right (.later hfirst hne hexpr heval)⟩

end Run

/-! ## Both -/

/-- Nothing but a fault of the text is an incomplete input. -/
theorem lexical_of_kind {error : SourceError} (h : error.kind? = some .incompleteInput) :
    ∃ e, error = .read (.lexical e) ∧ e.fault = .incomplete := by
  cases error with
  | read error =>
    have hkind : error.kind = .incompleteInput := Option.some.inj h
    cases error with
    | lexical e =>
      refine ⟨e, rfl, ?_⟩
      cases hfault : e.fault with
      | incomplete => rfl
      | _ =>
        rw [ReadError.kind, hfault] at hkind
        cases hkind
    | grammatical e => cases e <;> cases hkind
  | run interruption =>
    cases interruption with
    | fault e =>
      have hkind : e.fault.kind = .incompleteInput := Option.some.inj h
      have hphase := e.fault.phase_kind
      rw [hkind] at hphase
      cases hphase
    | _ => cases h

/-- **What the check says of a text is what a run of it finds, if it gets that far.** -/
theorem validation_agrees (text : String) (scope : ScopeId) (σ : Store) (fuel : Nat) :
    (WellFounded fun later earlier => Goes earlier later) ∧
    (validate text.toList .start = .valid →
      ∀ error σ', (Script.read text.toList .start).run fuel scope σ = .error error σ' →
        error.kind? ≠ some .incompleteInput) ∧
    (validate text.toList .start = .incomplete →
      ∃ place e, Relation.ReflTransGen Goes (text.toList, .start) place ∧
        first place.1 place.2 = .error e ∧ e.fault = .incomplete ∧
        ((∃ σ', (Script.read text.toList .start).run fuel scope σ = .error (.run .outOfFuel) σ') ∨
          ∃ error σ', (Script.read text.toList .start).run fuel scope σ = .error error σ' ∧
            (error = .read (.lexical e) ∨
              Fails (Action.apply fuel) scope (text.toList, .start) σ error σ'))) := by
  rw [run_eq_interleave]
  refine ⟨wellFounded_goes, fun hvalid error σ' hrun hkind => ?_, fun hincomplete => ?_⟩
  · obtain ⟨e, rfl, he⟩ := lexical_of_kind hkind
    obtain ⟨place, hrounds, hplace⟩ := rounds_of_interleave hrun
    have hverdict := (validate_of_rounds hrounds).trans (validate_of_error hplace he)
    rw [hvalid] at hverdict
    cases hverdict
  · obtain ⟨place, e, hrounds, hplace, he⟩ := exists_of_incomplete hincomplete
    exact ⟨place, e, hrounds, hplace, he, interleave_of_rounds hrounds hplace fuel none σ⟩

open Store (initial outermost) in
/-- A text with an open bracket: the division before the bracket ends the run. -/
theorem validation_of_division :
    let text := "1 / 0; f("
    validate text.toList .start = .incomplete ∧
      ∃ error σ', (Script.read text.toList .start).run 1 outermost initial.2 = .error error σ' ∧
        error.kind? = some .divisionByZero ∧
        Fails (Action.apply 1) outermost (text.toList, .start) initial.2 error σ' := by
  intro text
  have hincomplete : validate text.toList .start = .incomplete := by decide +kernel
  have hkind : (match (Script.read text.toList .start).run 1 outermost initial.2 with
      | .error error _ => error.kind?
      | .ok _ _ => none) = some .divisionByZero := by decide +kernel
  refine ⟨hincomplete, ?_⟩
  obtain ⟨_, e, -, -, he, ⟨σ', hrun⟩ | ⟨error, σ', hrun, hend⟩⟩ :=
    (validation_agrees text outermost initial.2 1).2.2 hincomplete
  · rw [hrun] at hkind
    cases hkind
  · rw [hrun] at hkind
    refine ⟨error, σ', hrun, hkind, hend.resolve_left ?_⟩
    rintro rfl
    simp [SourceError.kind?, ReadError.kind, he, LexFault.kind] at hkind

end Prompt

end Abacus
