import Abacus.Proofs.Run.Compared
import Abacus.Proofs.Run.Generators

/-!
# Exact comparisons

A comparison is exact if it takes any action that ends in no exit for what it is, whichever sequences
are there. Stores are the same then on both sides, and a probe that makes no difference at the moments
of reading a sequence makes none to what is read.

**The law** (`Comparison.Exact.through`): an exact comparison goes through programs.
-/

namespace Abacus

open Abacus.Action (Obeys Whatever)
open Probed (idle)

/-! ## Programs that end in no exit -/

/-- Programs may hold anything and report anywhere, but they do not end by an exit. -/
def Discipline.lasting : Discipline := ⟨fun _ => True, trivial, False, True, False⟩

open Discipline (lasting)

theorem Discipline.lenient_lasting : lasting.Lenient := ⟨fun _ => trivial, fun h => h⟩

theorem Value.allUnder_lasting (vs : List Value) : Value.AllUnder lasting vs :=
  Value.allUnder_of_lenient Discipline.lenient_lasting vs

theorem Generator.under_lasting (g : Generator) : g.Under lasting :=
  g.under_of_lenient Discipline.lenient_lasting

theorem Store.under_lasting (s : Store) : s.Under lasting :=
  s.under_of_lenient Discipline.lenient_lasting

/-- A machine that calls nothing ends nothing. -/
theorem idle_obeys : idle.Obeys lasting where
  call _ _ _ := .throw trivial
  reader := ⟨fun _ => .throw trivial, fun _ _ => .throw trivial⟩

/-- Actions that are blind to sequences end in no exit. -/
theorem Action.Blind.obeys_lasting {α : Type} {x : Action α} (h : Blind x) :
    Obeys lasting x Whatever := by
  intro s _
  rcases h s s.sequences with ⟨a, s', hs, -⟩ | ⟨e, s', hs, he, -⟩
  · rw [hs]
    exact .value s'.under_lasting trivial
  · rw [hs]
    refine .interruption s'.under_lasting ?_
    cases e with
    | exit code => exact absurd rfl (he code)
    | _ => trivial

namespace Comparison

variable {W : Type} [Carries W] (C : Comparison W)

/-- Actions that end in no exit are compared with themselves, and what is done at the moments of a run
makes no difference. -/
structure Exact (probe : Probe W) : Prop extends C.Tolerates probe where
  anywhere : ∀ {α : Type} {there there' : List SequenceId} {x : Probed W α} {y : Action α},
    C.Ties there x y → C.Ties there' x y
  lasting : ∀ {α : Type} {there : List SequenceId} {y : Action α} {P : α → Prop},
    Obeys lasting y P → C.Ties there (Probed.quiet y) y
  holding : ∀ {α : Type} {there : List SequenceId} {id : SourceId} {x : Probed W α} {y : Action α},
    C.Ties there x y → C.Ties there (Probed.holding id x) (Sequence.holding id y)
  /-- A built-in function gets as many arguments as it takes. -/
  running : ∀ {native : Native} {arguments : List Value} {position : Position},
    C.Harmless (probe.entering (.native native) arguments position)
  exiting : ∀ {there : List SequenceId} {arguments : List Value} {position : Position},
    C.Ties there
      (do
        probe.calling (.native .exit) arguments position
        probe.entering (.native .exit) arguments position
        probe.exiting (Probed.quiet (Native.run idle position .exit arguments)))
      (Native.run idle position .exit arguments)
  building : ∀ {origin : Origin}, C.Harmless (probe.building origin)
  element : ∀ {g : Generator}, g.Under C.discipline → C.Harmless (probe.element g)
  applying : ∀ {there : List SequenceId} {id : SourceId} {f argument : Value} {x : Probed W Value}
    {y : Action Value}, C.Ties there x y → C.Ties there (probe.applying id f argument x) y
  giving : ∀ {peek : Bool} {id : SourceId} {g : Generator} {v : Value},
    C.Harmless (probe.giving peek id g v)
  asking : ∀ {there : List SequenceId} {rounds : Nat} {id : SequenceId} {x : Probed W Value}
    {y : Action Value}, C.Ties there x y → C.Ties there (probe.asking rounds id x) y

namespace Exact

variable {C} {probe : Probe W} (h : C.Exact probe) {there : List SequenceId}
  {call : Probed.Call W} {call' : Call} (hcall : C.Calls call call')
  {reader : Probed.Reader W} {reader' : Reader} (hreader : C.Reads reader reader')

include h

/-! ## Single actions -/

/-- A look at the store. -/
theorem view {α : Type} (f : Store → α) :
    C.Ties there (Probed.quiet (Action.view f)) (Action.view f) :=
  h.lasting (P := Whatever) (.view fun _ => trivial)

/-- A change of the store. -/
theorem modify (f : Store → Store) :
    C.Ties there (Probed.quiet (modify f : Action PUnit)) (modify f : Action PUnit) :=
  h.lasting (.modify fun {s} _ => (f s).under_lasting)

/-! ## Sequences -/

include hcall hreader

/-- A generator calls its function, or it asks readers or nobody. -/
theorem generatorNext (peek : Bool) (id : SourceId) {g : Generator} (hg : g.Under C.discipline) :
    C.Ties there (Probed.generatorNext probe call reader peek id g) (g.next call' reader' peek) := by
  cases hdue : g.due? with
  | none => exact h.anywhere (hreader.generatorNext peek id hdue)
  | some due =>
    obtain ⟨f, argument, position⟩ := due
    obtain ⟨hf, hargument⟩ := hg.due hdue
    have harguments := Value.allUnder_singleton hargument
    rw [Probed.generatorNext_of_due hdue, Generator.next_of_due hdue]
    exact C.bind (h.applying (hcall.ties hf harguments))
      (hcall.obeys hf harguments (C.place position)) fun _ => C.pure _

/-- The generator that is asked lies in the store. -/
theorem raw (peek : Bool) (id : SourceId) (position : Position) :
    C.Ties there (Probed.raw probe call reader peek id position)
      (Sequence.raw call' reader' peek id position) := by
  refine C.bind (P := fun source => source.generator.Under C.discipline) (h.view _)
    (.view fun hs => hs.generator id) fun {source} hg => C.guarded fun _ => h.holding ?_
  refine C.bind (h.anywhere (hreader.generatorAtEnd source.generator))
    (Generator.atEnd_obeys hreader.obeys hg) fun {done} _ => ?_
  cases done with
  | true => exact C.pure none
  | false =>
    refine h.element hg (C.bind (h.generatorNext hcall hreader peek id hg)
      (Generator.next_obeys hcall.obeys hreader.obeys peek hg) fun hfound => h.giving ?_)
    exact C.bind (P := Whatever) (h.modify _) (.modify fun hs => hs.modifySource fun _ => hfound.2)
      fun _ => C.pure _

theorem seek (id : SequenceId) {q : Sequence} (hq : q.Under C.discipline) (fuel : Nat) :
    C.Ties there (Probed.seek probe call reader id q fuel)
      (Sequence.seek call' reader' id q fuel) := by
  induction fuel with
  | zero => exact C.throw nofun
  | succ fuel ih =>
    have hraw (peek : Bool) : Obeys C.discipline
        (Sequence.raw call' reader' peek q.source q.position) (Value.OptionUnder C.discipline) :=
      Sequence.raw_obeys hcall.obeys hreader.obeys (C.place q.position)
    refine C.bind (P := Whatever) (h.view _) (.view fun _ => trivial) fun {stamp} _ => ?_
    refine C.bind (h.raw hcall hreader _ _ _) (hraw true) fun {element} helement => ?_
    cases element with
    | none => exact C.pure none
    | some element =>
      have helement := Value.optionUnder_some.mp helement
      refine C.bind (hcall.transform hq.transformers helement) (Sequence.transform_obeys hcall.obeys
        (C.place q.position) hq.transformers helement) fun {found} hfound => ?_
      cases found with
      | some value =>
        refine C.bind (h.modify _) (Sequence.setPending_obeys fun pair hpair => ?_) fun _ => C.pure _
        cases hpair
        exact Value.optionUnder_some.mp hfound
      | none => exact C.bind (h.raw hcall hreader _ _ _) (hraw false) fun _ => ih

/-- What has been found before holds good on both sides, or on none. -/
theorem lookahead (fuel : Nat) (id : SequenceId) :
    C.Ties there (Probed.lookahead probe call reader fuel id)
      (Sequence.lookahead call' reader' fuel id) := by
  refine C.bind (h.view _) (.view fun hs => hs.sequence id) fun {q} hq => ?_
  refine C.bind (P := Whatever) (h.view _) (.view fun _ => trivial) fun {advanced} _ => ?_
  cases q.pending with
  | none => exact h.seek hcall hreader id hq fuel
  | some found =>
    dsimp only
    split
    · exact C.pure _
    · exact C.bind (h.modify _) (Sequence.setPending_obeys fun _ h => nomatch h) fun _ =>
        h.seek hcall hreader id hq fuel

theorem advance (id : SequenceId) :
    C.Ties there (Probed.advance probe call reader id) (Sequence.advance call' reader' id) :=
  C.bind (P := Whatever) (h.view _) (.view fun _ => trivial) fun _ => h.raw hcall hreader _ _ _

omit hcall hreader

/-- **An exact comparison goes through programs.** -/
theorem through : C.Through probe false where
  toTolerates := h.toTolerates
  vets hvetted := nomatch hvetted
  vetting hx := h.running (h.anywhere hx)
  exiting := h.exiting
  natives {_ native arguments position} hnotable _ := by
    refine h.lasting (Native.run_obeys trivial idle_obeys native (Value.allUnder_lasting arguments)
      (fun hexit => ?_) (.inr trivial))
    subst hexit
    cases hnotable
  building := h.building (h.lasting (Sequence.create_obeys (Generator.under_lasting _) trivial))
  asking hx _ := h.asking hx
  forget _ := h.modify _
  lookahead fuel hcall hreader _ := h.lookahead hcall hreader fuel _
  advance id hcall hreader := h.advance hcall hreader id

end Exact

end Comparison

end Abacus
