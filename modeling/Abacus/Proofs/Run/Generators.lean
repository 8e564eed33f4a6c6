import Abacus.Proofs.Run.Comparing

/-!
# Probed generators

A generator that is asked for its next element does one of two things. It calls its function, if it has
a call to make (`Generator.due?`); or it asks the sequences that it takes from, or nobody. What it
becomes can be told from what it gives in either case.

**The law** (`Comparison.Reads.generatorNext`): where readers are compared with readers, a generator
that has no call to make is compared with itself.
-/

namespace Abacus

open Abacus.Action (Blind Whatever)
open Probed (idle)

/-! ## Generators that have a call to make -/

namespace Generator

variable {g : Generator} {f argument : Value} {position : Position} {call : Call} {reader : Reader}
  {peek : Bool}

/-- Function and argument are values that the generator keeps, or a number. -/
theorem Under.due {D : Discipline} (h : g.Under D) (hdue : g.due? = some (f, argument, position)) :
    f.Under D ∧ argument.Under D := by
  cases g with
  | index f' place limit cached position' =>
    cases cached with
    | some v => cases hdue
    | none =>
      rw [due?] at hdue
      split at hdue
      · cases hdue
      · cases hdue
        exact ⟨h.1, trivial⟩
  | iterate f' upcoming previous position' =>
    obtain ⟨hf, -, hprevious, -⟩ := h
    cases upcoming with
    | some v => cases hdue
    | none =>
      cases previous with
      | none => cases hdue
      | some v =>
        cases hdue
        exact ⟨hf, Value.optionUnder_some.mp hprevious⟩
  | _ => cases hdue

/-- A generator that has a call to make is not at its end. -/
theorem atEnd_of_due (hdue : g.due? = some (f, argument, position)) :
    g.atEnd reader = pure false := by
  cases g with
  | index f' place limit cached position' =>
    cases cached with
    | some v => cases hdue
    | none =>
      rw [due?] at hdue
      split at hdue
      · cases hdue
      · next hlimit => rw [atEnd_index, Bool.eq_false_iff.mpr hlimit]
  | iterate => rfl
  | _ => cases hdue

/-- It makes the call, and gives what it gets. -/
theorem next_of_due (hdue : g.due? = some (f, argument, position)) :
    g.next call reader peek = do
      let v ← call f [argument] position
      return (v, g.given peek v) := by
  have hend : g.atEnd reader = pure false := atEnd_of_due hdue
  cases g with
  | index f' place limit cached position' =>
    cases cached with
    | some v => cases hdue
    | none =>
      rw [due?] at hdue
      split at hdue
      · cases hdue
      · cases hdue
        rw [next, hend]
        cases peek <;> rfl
  | iterate f' upcoming previous position' =>
    cases upcoming with
    | some v => cases hdue
    | none =>
      cases previous with
      | none => cases hdue
      | some v =>
        cases hdue
        cases peek <;> rfl
  | _ => cases hdue

/-- The same for a pull. -/
theorem pull_of_due (hdue : g.due? = some (f, argument, position)) :
    g.pull call reader peek = do
      let v ← call f [argument] position
      return some (v, g.given peek v) := by
  rw [pull, atEnd_of_due hdue, next_of_due hdue]
  simp only [pure_bind, bind_assoc, Bool.false_eq_true, if_false]

/-! ## Generators that ask nobody -/

/-- What calls nothing and reads nothing is blind to sequences. -/
theorem blind_atEnd (g : Generator) : Action.Blind (g.atEnd idle.reader) := by
  cases g with
  | index | iterate => exact .pure _
  | range => exact .ofNumeric _ _
  | vector items place position => exact (Action.Blind.view fun _ _ => rfl).bind fun _ => .pure _
  | zip left right => exact .throw nofun
  | take sequence remaining =>
    rw [atEnd]
    split
    · exact .pure true
    · exact .throw nofun

/-- What takes from no sequence, and has no call to make, is blind to sequences. -/
theorem blind_next (peek : Bool) (h : g.references = []) :
    Action.Blind (g.next idle.call idle.reader peek) := by
  cases g with
  | index f place limit cached position =>
    refine (blind_atEnd (.index f place limit cached position)).bind fun _ => .guarded ?_
    cases cached with
    | some v => exact .pure _
    | none => exact .throw nofun
  | iterate f upcoming previous position =>
    cases upcoming with
    | some v => exact .pure _
    | none =>
      cases previous with
      | some v => exact .throw nofun
      | none => exact .fail _ _
  | range current stop step position =>
    refine (blind_atEnd (.range current stop step position)).bind fun _ => .guarded ?_
    exact .pure _
  | vector items place position =>
    refine (Action.Blind.view fun _ _ => rfl).bind fun xs => ?_
    cases xs[place]? with
    | some v => exact .pure _
    | none => exact .fail _ _
  | zip | take => cases h

end Generator

/-! ## Probed generators -/

namespace Probed

variable {W : Type} [Carries W] {probe : Probe W} {call : Call W} {reader : Reader W} {peek : Bool}
  {id : SourceId} {g : Generator} {f argument : Value} {position : Position}

/-- A probed generator is at its end where the generator is. -/
theorem generatorAtEnd_of_due (hdue : g.due? = some (f, argument, position)) :
    generatorAtEnd reader g = pure false := by
  have hquiet : generatorAtEnd reader g = quiet (g.atEnd idle.reader) := by
    cases g with
    | zip | take => cases hdue
    | _ => rfl
  rw [hquiet, Generator.atEnd_of_due hdue, quiet_pure]

/-- It makes the same call. -/
theorem generatorNext_of_due (hdue : g.due? = some (f, argument, position)) :
    generatorNext probe call reader peek id g = do
      let v ← probe.applying id f argument (call f [argument] position)
      return (v, g.given peek v) := by
  cases g with
  | index f' place limit cached position' =>
    cases cached with
    | some v => cases hdue
    | none =>
      have hend : Generator.atEnd idle.reader (.index f' place limit none position') = pure false :=
        Generator.atEnd_of_due hdue
      rw [Generator.due?] at hdue
      split at hdue
      · cases hdue
      · cases hdue
        rw [generatorNext, hend, quiet_pure]
        cases peek <;> rfl
  | iterate f' upcoming previous position' =>
    cases upcoming with
    | some v => cases hdue
    | none =>
      cases previous with
      | none => cases hdue
      | some v =>
        cases hdue
        cases peek <;> rfl
  | _ => cases hdue

end Probed

namespace Comparison

variable {W : Type} [Carries W] {C : Comparison W} {probe : Probe W} {call : Probed.Call W}
  {call' : Call} {reader : Probed.Reader W} {reader' : Reader} (hreader : C.Reads reader reader')

include hreader

/-- A generator asks the sequences that it takes from whether they are at their end. -/
theorem Reads.generatorAtEnd (g : Generator) :
    C.Ties g.references (Probed.generatorAtEnd reader g) (g.atEnd reader') := by
  cases g with
  | zip left right =>
    refine C.bind (hreader.atEnd List.mem_cons_self) (hreader.obeys.atEnd left) fun {done} _ => ?_
    cases done with
    | true => exact C.pure true
    | false => exact hreader.atEnd (List.mem_cons_of_mem _ (List.mem_singleton_self right))
  | take sequence remaining =>
    rw [Probed.generatorAtEnd, Generator.atEnd]
    split
    · exact C.pure true
    · exact hreader.atEnd (List.mem_singleton_self sequence)
  | index f place limit cached position =>
    exact C.quiet (Generator.blind_atEnd (.index f place limit cached position))
  | iterate f upcoming previous position =>
    exact C.quiet (Generator.blind_atEnd (.iterate f upcoming previous position))
  | range current stop step position =>
    exact C.quiet (Generator.blind_atEnd (.range current stop step position))
  | vector items place position =>
    exact C.quiet (Generator.blind_atEnd (.vector items place position))

/-- **A generator that has no call to make asks the sequences that it takes from, or nobody.** -/
theorem Reads.generatorNext (peek : Bool) (id : SourceId) {g : Generator} (hdue : g.due? = none) :
    C.Ties g.references (Probed.generatorNext probe call reader peek id g)
      (g.next call' reader' peek) := by
  have hidle {g : Generator} (hg : g.references = []) : C.Ties g.references
      (Probed.quiet (g.next idle.call idle.reader peek)) (g.next idle.call idle.reader peek) :=
    C.quiet (Generator.blind_next peek hg)
  cases g with
  | zip left right =>
    refine C.bind (hreader.next peek List.mem_cons_self) (hreader.obeys.next left peek)
      fun {a} ha => ?_
    refine C.bind (hreader.next peek (List.mem_cons_of_mem _ (List.mem_singleton_self right)))
      (hreader.obeys.next right peek) fun {b} hb => ?_
    exact C.bind (C.newVector [a, b]) (.newVector (Value.allUnder_pair ha hb)) fun _ => C.pure _
  | take sequence remaining =>
    rw [Probed.generatorNext, Generator.next]
    split
    · exact C.bind (P := Whatever) (C.position sequence) (.view fun _ => trivial) fun _ => C.fail_bind
    · exact C.bind (hreader.next peek (List.mem_singleton_self sequence))
        (hreader.obeys.next sequence peek) fun _ => C.pure _
  | index f place limit cached position =>
    cases cached with
    | some v => exact hidle (g := .index f place limit (some v) position) rfl
    | none =>
      have hlimit : limit.any (· ≤ (place : Int)) = true := by
        by_contra hlimit
        rw [Generator.due?, if_neg hlimit] at hdue
        cases hdue
      rw [Probed.generatorNext, Generator.next, Generator.atEnd_index, Generator.atEnd_index, hlimit,
        Probed.quiet_pure, pure_bind, pure_bind, if_pos rfl, if_pos rfl]
      exact C.fail_bind
  | iterate f upcoming previous position =>
    cases upcoming with
    | some v => exact hidle (g := .iterate f (some v) previous position) rfl
    | none =>
      cases previous with
      | some v => cases hdue
      | none => exact hidle (g := .iterate f none none position) rfl
  | range current stop step position => exact hidle (g := .range current stop step position) rfl
  | vector items place position => exact hidle (g := .vector items place position) rfl

end Comparison

end Abacus
