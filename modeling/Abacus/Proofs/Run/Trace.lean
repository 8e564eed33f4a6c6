import Abacus.Proofs.Run.Probed

/-!
# Watched runs

A run that is watched does what the run does and notes on the way which expressions are evaluated,
what is called, and which calls of `exit` end the program.

`Traced.runSource` watches a source. That it does what `runSource` does is proved beside the law about
exits.
-/

namespace Abacus

/-- What is noted. -/
inductive Event where
  /-- An expression begins to be evaluated in a scope. -/
  | expression (e : Expr) (scope : ScopeId)
  /-- A value is called with arguments. -/
  | call (f : Value) (arguments : List Value) (position : Position)
  /-- A call of `exit` ends in an exit with this code. -/
  | exit (code : Int)

/-- The code of an exit. -/
def Event.exitCode? : Event → Option Int
  | .exit code => some code
  | _ => none

/-- A store with what has been noted so far. -/
structure Watched where
  store : Store
  events : List Event

instance : Carries Watched :=
  ⟨Watched.store, fun w store => { w with store }, fun _ => rfl, fun _ _ => rfl, fun _ _ _ => rfl⟩

abbrev Traced := Probed Watched

namespace Traced

variable {α : Type}

/-- A quiet action notes nothing. -/
theorem quiet_apply (x : Action α) (w : Watched) :
    (Probed.quiet x : Traced α) w = match x w.store with
      | .ok a s => .ok a ⟨s, w.events⟩
      | .error e s => .error e ⟨s, w.events⟩ := rfl

/-- Nor does the mark that a source refuses to be read. -/
theorem holding_apply (id : SourceId) (x : Traced α) (w : Watched) :
    Probed.holding id x w =
      match x ⟨w.store.modifySource id ({ · with busy := true }), w.events⟩ with
      | .ok a w => .ok a ⟨w.store.modifySource id ({ · with busy := false }), w.events⟩
      | .error e w => .error e ⟨w.store.modifySource id ({ · with busy := false }), w.events⟩ := by
  unfold Probed.holding
  dsimp only [Carries.store, Carries.put]
  cases x _ <;> rfl

def note (event : Event) : Traced Unit := modify fun w => { w with events := w.events ++ [event] }

/-- Notes it if an action ends in an exit. -/
def exiting (x : Traced α) : Traced α := fun w =>
  match x w with
  | .error (.exit code) w => .error (.exit code) { w with events := w.events ++ [.exit code] }
  | result => result

/-- Notes expressions, calls and exits. -/
def probe : Probe Watched where
  expression e scope := note (.expression e scope)
  calling f arguments position := note (.call f arguments position)
  exiting := exiting

/-- Runs a source in a scope and notes what it does. -/
def runSource (source : String) (scope : ScopeId) : EStateM SourceError Watched (Option Value) :=
  Probed.runSource probe source scope

/-- What a watched run does, without what has been noted. -/
def outcome {ε α : Type} : EStateM.Result ε Watched α → EStateM.Result ε Store α
  | .ok a w => .ok a w.store
  | .error e w => .error e w.store

/-- What has been noted when a watched run ends. -/
def noted {ε α : Type} : EStateM.Result ε Watched α → List Event
  | .ok _ w => w.events
  | .error _ w => w.events

end Traced

end Abacus
