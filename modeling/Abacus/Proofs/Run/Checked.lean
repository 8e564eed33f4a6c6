import Abacus.Proofs.Run.Parameters
import Abacus.Proofs.Run.Probed
import Abacus.Proofs.Sequence.Reading
import Abacus.Proofs.Syntax.WellFormed

/-!
# Checked runs

An evaluator guards against much that cannot happen: a block without statements, a sequence that was
never given its seed. A checked run does what the run does, and makes a check at each moment at which
such a guard stands. `Moment.Fine` says what is there to be found at these moments. A check that does
nothing where all is fine tells, by what becomes of the run, whether all was fine at every moment:
anything else it does, or even an interruption that no handler takes, shows in how the run ends.

`Checked.runSource` checks a source. That nothing comes of it is proved beside the law about guards
that are never needed.
-/

namespace Abacus

/-- A moment of a run at which there is something to check. -/
inductive Moment where
  /-- An expression begins to be evaluated. -/
  | expression (e : Expr)
  /-- A block has been evaluated, and no statement of it has given it a value. -/
  | valueless
  /-- A function is called with as many arguments as it has parameters. -/
  | called (closure : Closure) (arguments : List Value) (position : Position)
  /-- A generator is asked for its next element. -/
  | element (generator : Generator)

/-- What is done at the moments of a run. -/
abbrev Check := Moment → Action Unit

/-! ## What there is to be found -/

/-- The values that a generator keeps. -/
def Generator.values : Generator → List Value
  | .index f _ _ cached _ => f :: cached.toList
  | .iterate f upcoming previous _ => f :: (upcoming.toList ++ previous.toList)
  | _ => []

/-- A value is kept somewhere in the store. -/
inductive Store.Stores (s : Store) : Value → Prop
  | binding {scope : Scope} {binding : String × Value} :
    scope ∈ s.scopes → binding ∈ scope.bindings → s.Stores binding.2
  | element {items : Array Value} {v : Value} : items ∈ s.vectors → v ∈ items → s.Stores v
  | generator {source : Source} {v : Value} :
    source ∈ s.sources → v ∈ source.generator.values → s.Stores v
  | transformer {q : Sequence} {t : Transformer} :
    q ∈ s.sequences → t ∈ q.transformers → s.Stores t.function
  | pending {q : Sequence} {found : Nat × Value} :
    q ∈ s.sequences → found ∈ q.pending → s.Stores found.2

/-- What a moment should find. -/
def Moment.Expected (s : Store) : Moment → Prop
  | .expression e => e.WellFormed
  | .valueless => False
  | .called closure arguments position =>
    (∀ name ∈ closure.parameters, s.isReserved closure.scope name = false) →
      ∃ scope s', Action.callScope closure arguments position s = .ok scope s' ∧
        ∀ (i : Nat) (name : String) (value : Value), closure.parameters[i]? = some name →
          arguments[i]? = some value → s'.lookup scope name = .ok value
  | .element generator => ∀ f position, generator ≠ .iterate f none none position

/-- All is as it should be: trees are well formed, blocks have values, each parameter of a call
stands for its argument, and a sequence that repeats a function knows what to go on from. And all
errors that the store holds are of kinds that running programs raise. -/
structure Moment.Fine (m : Moment) (s : Store) : Prop where
  expected : m.Expected s
  errors : ∀ kind : ErrorKind, s.Stores (.error kind) → kind.phase = .runtime

/-- A check does nothing where all is fine. -/
def Check.Silent (check : Check) : Prop :=
  ∀ (m : Moment) (s : Store), m.Fine s → check m s = .ok () s

namespace Checked

variable (check : Check)

/-- Makes a check wherever a guard stands. -/
def probe : Probe Store where
  expression e _ := check (.expression e)
  valueless := check .valueless
  entering
    | .function closure, arguments, position => check (.called closure arguments position)
    | _, _, _ => pure ()
  element generator := check (.element generator)

/-- Runs a source in a scope and checks what it does. -/
def runSource (source : String) (scope : ScopeId) : EStateM SourceError Store (Option Value) :=
  Probed.runSource (probe check) source scope

end Checked

end Abacus
