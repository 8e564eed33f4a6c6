import Abacus.Run.Source

/-!
# Probed runs

What programs do on their way does not show in what they leave. To speak of it, a run is probed: at
certain moments something is done that does not belong to the run, such as a note of what happens.
The run goes through a state that carries a store, with something beside it for the notes.

There is one probed run for all of them. It follows the evaluator step by step, and a `Probe` tells
what is done at each moment. What runs no function of the program, evaluates no expression and asks no
sequence is left to the action itself, on a machine that calls nothing.

That a probed run does what the run does depends on the probe. What it takes is stated beside the law
that compares both (`Comparison.Through`).
-/

namespace Abacus

/-- A state that carries a store. -/
class Carries (W : Type) where
  store : W → Store
  /-- The same with another store. -/
  put : W → Store → W
  put_store : ∀ w, put w (store w) = w
  store_put : ∀ w s, store (put w s) = s
  put_put : ∀ w s s', put (put w s) s' = put w s'

attribute [simp] Carries.put_store Carries.store_put Carries.put_put

instance : Carries Store :=
  ⟨fun s => s, fun _ s => s, fun _ => rfl, fun _ _ => rfl, fun _ _ _ => rfl⟩

/-- What a probed run does: an action in a state that carries a store. -/
abbrev Probed (W : Type) := EStateM Interruption W

/-- How a generator is built that calls a function. -/
inductive Origin where
  | index (f : Value) (limit : Option Int) (position : Position)
  | iterate (f seed : Value) (position : Position)

namespace Origin

/-- The function that is called. -/
def function : Origin → Value
  | .index f _ _ | .iterate f _ _ => f

/-- The elements that are known before the first call. -/
def seeds : Origin → List Value
  | .index .. => []
  | .iterate _ seed _ => [seed]

/-- What the function is to be called with when these elements have been consumed. -/
def argument? : Origin → List Value → Option Value
  | .index _ limit _, consumed =>
    if limit.any (· ≤ (consumed.length : Int)) then none else some (.ofNat consumed.length)
  | .iterate .., consumed => consumed.getLast?

/-- The generator when these elements have been consumed, and the next one may be known. -/
def generator : Origin → List Value → Option Value → Generator
  | .index f limit position, consumed, known => .index f consumed.length limit known position
  | .iterate f _ position, consumed, known => .iterate f known consumed.getLast? position

end Origin

/-- What is done at the moments of a run; nothing where nothing else is said. -/
structure Probe (W : Type) where
  /-- An expression begins to be evaluated in a scope. -/
  expression : Expr → ScopeId → Probed W Unit := fun _ _ => pure ()
  /-- A block has been evaluated, and no statement of it has given it a value. -/
  valueless : Probed W Unit := pure ()
  /-- A value is called with arguments. -/
  calling : Value → List Value → Position → Probed W Unit := fun _ _ _ => pure ()
  /-- What is called gets as many arguments as it takes. -/
  entering : Value → List Value → Position → Probed W Unit := fun _ _ _ => pure ()
  /-- `exit` is run. -/
  exiting : Probed W Value → Probed W Value := id
  /-- A generator is built that calls a function. -/
  building : Origin → Probed W Unit := fun _ => pure ()
  /-- A generator is asked for its next element. -/
  element : Generator → Probed W Unit := fun _ => pure ()
  /-- The generator of a source calls its function with an argument. -/
  applying : SourceId → (f argument : Value) → Probed W Value → Probed W Value := fun _ _ _ => id
  /-- The generator of a source gives an element, to look at or for good. -/
  giving : (peek : Bool) → SourceId → Generator → Value → Probed W Unit := fun _ _ _ _ => pure ()
  /-- A built-in function asks a sequence, with so many rounds to go. -/
  asking : (rounds : Nat) → SequenceId → Probed W Value → Probed W Value := fun _ _ => id

namespace Probed

variable {W : Type}

/-- The way in which a probed action calls functions. -/
abbrev Call (W : Type) := Value → List Value → Position → Probed W Value

/-- What a probed generator may ask of sequences. -/
structure Reader (W : Type) where
  atEnd : SequenceId → Probed W Bool
  next : SequenceId → (peek : Bool) → Probed W Value

/-- What a probed built-in function runs on. -/
structure Machine (W : Type) where
  call : Call W
  reader : Reader W
  fuel : Nat

/-- A machine that calls nothing and reads nothing. -/
def idle : Abacus.Machine :=
  ⟨fun _ _ _ => throw .misapplied, ⟨fun _ => throw .misapplied, fun _ _ => throw .misapplied⟩, 0⟩

/-- Goes on with a handler after a fault, and after nothing else. -/
def recover {α : Type} (x : Probed W α) (handler : Fault → Probed W α) : Probed W α := fun w =>
  match x w with
  | .error (.fault error) w => handler error.fault w
  | result => result

variable [Carries W]

/-- An action in a state that carries the store; what is beside the store stays. -/
def quiet {α : Type} (x : Action α) : Probed W α := fun w =>
  match x (Carries.store w) with
  | .ok a s => .ok a (Carries.put w s)
  | .error e s => .error e (Carries.put w s)

theorem quiet_pure {α : Type} (a : α) : (quiet (pure a) : Probed W α) = pure a := by
  funext w
  show EStateM.Result.ok a (Carries.put w (Carries.store w)) = .ok a w
  rw [Carries.put_store]

/-- What is made of quiet actions is quiet. -/
theorem quiet_bind {α β : Type} (x : Action α) (f : α → Action β) :
    (quiet (x >>= f) : Probed W β) = quiet x >>= fun a => quiet (f a) := by
  funext w
  show quiet (EStateM.bind x f) w = EStateM.bind (quiet x) (fun a => quiet (f a)) w
  simp only [quiet, EStateM.bind]
  cases x (Carries.store w) with
  | ok a s => simp only [Carries.store_put, Carries.put_put]
  | error e s => rfl

/-- Runs an action while a source refuses to be read, however the action ends. -/
def holding {α : Type} (id : SourceId) (x : Probed W α) : Probed W α := fun w =>
  let mark (busy : Bool) (w : W) : W :=
    Carries.put w ((Carries.store w).modifySource id ({ · with busy }))
  match x (mark true w) with
  | .ok a w => .ok a (mark false w)
  | .error e w => .error e (mark false w)

variable (probe : Probe W)

/-! ## Generators -/

/-- Whether a generator is at its end. Only pairs and first elements ask sequences for it. -/
def generatorAtEnd (reader : Reader W) : Generator → Probed W Bool
  | .zip left right => do
    if ← reader.atEnd left then return true
    reader.atEnd right
  | .take sequence remaining => if remaining = 0 then pure true else reader.atEnd sequence
  | generator => quiet (generator.atEnd idle.reader)

/-- The next element of the generator of a source, and the generator after it. -/
def generatorNext (call : Call W) (reader : Reader W) (peek : Bool) (id : SourceId) :
    Generator → Probed W (Value × Generator)
  | .index f place limit none position => do
    if ← quiet (Generator.atEnd idle.reader (.index f place limit none position)) then
      quiet (Action.fail .exhausted position)
    let value ← probe.applying id f (.ofNat place) (call f [.ofNat place] position)
    return (value,
      if peek then .index f place limit (some value) position
      else .index f (place + 1) limit none position)
  | .iterate f none (some previous) position => do
    let value ← probe.applying id f previous (call f [previous] position)
    return (value,
      if peek then .iterate f (some value) (some previous) position
      else .iterate f none (some value) position)
  | .zip left right => do
    let a ← reader.next left peek
    let b ← reader.next right peek
    return (← quiet (Action.newVector [a, b]), .zip left right)
  | .take sequence remaining => do
    if remaining = 0 then
      let position ← quiet (Action.view fun s => (s.sequence sequence).position)
      quiet (Action.fail .exhausted position)
    let value ← reader.next sequence peek
    return (value, .take sequence (if peek then remaining else remaining - 1))
  | generator => quiet (generator.next idle.call idle.reader peek)

/-! ## Sequences -/

/-- A source whose generator calls a function, and a sequence of all its elements. -/
def build (origin : Origin) (position : Position) : Probed W Value := do
  probe.building origin
  quiet (Sequence.create (origin.generator [] origin.seeds.head?) position)

/-- The next raw element of a source, to look at or for good; none at the end. -/
def raw (call : Call W) (reader : Reader W) (peek : Bool) (id : SourceId) (position : Position) :
    Probed W (Option Value) := do
  let source ← quiet (Action.view (·.source id))
  if source.busy then quiet (Action.fail .reentrantSequence position)
  holding id do
    if ← generatorAtEnd reader source.generator then return none
    probe.element source.generator
    let (value, generator) ← generatorNext probe call reader peek id source.generator
    probe.giving peek id source.generator value
    quiet (modify (·.modifySource id fun source =>
      { source with generator, advanced := if peek then source.advanced else source.advanced + 1 }))
    return some value

def transform (call : Call W) (position : Position) :
    List Transformer → Value → Probed W (Option Value)
  | [], value => pure (some value)
  | .map f :: rest, value => do transform call position rest (← call f [value] position)
  | .filter predicate :: rest, value => do
    match ← call predicate [value] position with
    | .boolean true => transform call position rest value
    | .boolean false => return none
    | other => quiet (Action.fail (.predicate other.typeTag) position)

/-- Searches for the next element that the stages let through, and keeps it. -/
def seek (call : Call W) (reader : Reader W) (id : SequenceId) (sequence : Sequence) :
    (fuel : Nat) → Probed W (Option Value)
  | 0 => throw .outOfFuel
  | fuel + 1 => do
    let stamp ← quiet (Action.view fun s => (s.source sequence.source).advanced)
    match ← raw probe call reader true sequence.source sequence.position with
    | none => return none
    | some element =>
      match ← transform call sequence.position sequence.transformers element with
      | some value =>
        quiet (modify (·.setPending id (some (stamp, value))))
        return some value
      | none =>
        let _ ← raw probe call reader false sequence.source sequence.position
        seek call reader id sequence fuel

def lookahead (call : Call W) (reader : Reader W) (fuel : Nat) (id : SequenceId) :
    Probed W (Option Value) := do
  let sequence ← quiet (Action.view (·.sequence id))
  let advanced ← quiet (Action.view fun s => (s.source sequence.source).advanced)
  match sequence.pending with
  | some (stamp, value) =>
    if stamp = advanced then return some value
    quiet (modify (·.setPending id none))
    seek probe call reader id sequence fuel
  | none => seek probe call reader id sequence fuel

def atEnd (call : Call W) (reader : Reader W) (fuel : Nat) (id : SequenceId) : Probed W Bool := do
  return (← lookahead probe call reader fuel id).isNone

def peek (call : Call W) (reader : Reader W) (fuel : Nat) (id : SequenceId) (position : Position) :
    Probed W Value := do
  match ← lookahead probe call reader fuel id with
  | some value => return value
  | none => quiet (Action.fail .exhausted position)

/-- Consumes a raw element of a sequence; none at the end. -/
def advance (call : Call W) (reader : Reader W) (id : SequenceId) : Probed W (Option Value) := do
  let sequence ← quiet (Action.view (·.sequence id))
  raw probe call reader false sequence.source sequence.position

def next (call : Call W) (reader : Reader W) (fuel : Nat) (id : SequenceId) (position : Position) :
    Probed W Value := do
  let value ← peek probe call reader fuel id position
  let _ ← advance probe call reader id
  quiet (modify (·.setPending id none))
  return value

def skip (call : Call W) (reader : Reader W) (id : SequenceId) : (count : Nat) → Probed W Unit
  | 0 => pure ()
  | count + 1 => do
    match ← advance probe call reader id with
    | some _ => skip call reader id count
    | none => return

def foldAll {σ : Type} (call : Call W) (reader : Reader W) (id : SequenceId) (position : Position)
    (step : σ → Value → Probed W σ) : (fuel : Nat) → σ → Probed W σ
  | 0, _ => throw .outOfFuel
  | fuel + 1, state => do
    if ← atEnd probe call reader (fuel + 1) id then return state
    foldAll call reader id position step fuel
      (← step state (← next probe call reader (fuel + 1) id position))

def collect (call : Call W) (reader : Reader W) (fuel : Nat) (id : SequenceId) :
    Probed W (List Value) := do
  let position ← quiet (Action.view fun s => (s.sequence id).position)
  let reversed ←
    foldAll probe call reader id position (fun items item => pure (item :: items)) fuel []
  return reversed.reverse

def Reader.ofDepth (call : Call W) : (depth : Nat) → Reader W
  | 0 => ⟨fun _ => throw .outOfFuel, fun _ _ => throw .outOfFuel⟩
  | depth + 1 =>
    { atEnd := Probed.atEnd probe call (ofDepth call depth) depth
      next := fun id peek => do
        let position ← quiet (Action.view fun s => (s.sequence id).position)
        if peek then Probed.peek probe call (ofDepth call depth) depth id position
        else Probed.next probe call (ofDepth call depth) depth id position }

/-! ## Built-in functions -/

/-- The sequences among the arguments of a call. -/
def sequencesOf (arguments : List Value) : List SequenceId :=
  arguments.filterMap fun
    | .sequence id => some id
    | _ => none

def filterItems (call : Call W) (predicate : Value) (position : Position) (kept : List Value) :
    List Value → Probed W (List Value)
  | [] => pure kept.reverse
  | item :: rest => do
    match ← call predicate [item] position with
    | .boolean true => filterItems call predicate position (item :: kept) rest
    | .boolean false => filterItems call predicate position kept rest
    | other => quiet (Action.fail (.predicate other.typeTag) position)

/-- What a built-in function does. Most of them neither run functions of the program nor ask
sequences. -/
def run (machine : Machine W) (position : Position) : Native → List Value → Probed W Value
  | .seq, [f] => do
    quiet (Native.expectCallable "seq" position f)
    build probe (.index f none position) position
  | .seq, [f, count] => do
    quiet (Native.expectCallable "seq" position f)
    let limit ← quiet (Native.expectCount "seq" position count)
    build probe (.index f (some limit) position) position
  | .iterate, [seed, f] => do
    quiet (Native.expectCallable "iterate" position f)
    build probe (.iterate f seed position) position
  | .map, [.vector id, f] => do
    quiet (Native.expectCallable "map" position f)
    let items ← quiet (Action.items id)
    quiet (Action.newVector (← items.mapM fun item => machine.call f [item] position))
  | .filter, [.vector id, f] => do
    quiet (Native.expectCallable "filter" position f)
    let items ← quiet (Action.items id)
    quiet (Action.newVector (← filterItems machine.call f position [] items))
  | .reduce, [.vector id, seed, f] => do
    quiet (Native.expectCallable "reduce" position f)
    let items ← quiet (Action.items id)
    items.foldlM (fun state item => machine.call f [state, item] position) seed
  | .reduce, [.sequence id, seed, f] => do
    quiet (Native.expectCallable "reduce" position f)
    probe.asking machine.fuel id (foldAll probe machine.call machine.reader id position
      (fun state item => machine.call f [state, item] position) machine.fuel seed)
  | .skip, [.sequence id, count] => do
    let n ← quiet (Native.expectCount "skip" position count)
    probe.asking n id do
      skip probe machine.call machine.reader id n
      return .sequence id
  | .collect, [.sequence id] => probe.asking machine.fuel id do
    quiet (Action.newVector (← collect probe machine.call machine.reader machine.fuel id))
  | .next, [.sequence id] => probe.asking machine.fuel id
    (next probe machine.call machine.reader machine.fuel id position)
  | .peek, [.sequence id] => probe.asking machine.fuel id
    (peek probe machine.call machine.reader machine.fuel id position)
  | .hasNext, [.sequence id] => probe.asking machine.fuel id do
    return .boolean (!(← atEnd probe machine.call machine.reader machine.fuel id))
  | .tryOr, [body, instead] => do
    quiet (Native.expectThunk "try_or" position body)
    recover (machine.call body [] position) fun _ => pure instead
  | .tryCatch, [body, handler] => do
    quiet (Native.expectThunk "try_catch" position body)
    quiet (Native.expectCallable "try_catch" position handler)
    recover (machine.call body [] position) fun fault =>
      machine.call handler [.error fault.kind] position
  | .exit, arguments => probe.exiting (quiet (Native.run idle position .exit arguments))
  | native, arguments => quiet (native.run idle position arguments)

/-! ## Expressions -/

mutual

/-- The value of an expression. -/
def evaluate (call : Call W) (e : Expr) (scope : ScopeId) : Probed W Value := do
  probe.expression e scope
  match e with
  | .vector elements _ => quiet (Action.newVector (← evaluateAll call elements scope))
  | .block body position =>
    match ← evaluateBody call body (← quiet (Action.enclose scope)) none with
    | some value => return value
    | none =>
      probe.valueless
      quiet (Action.fail .emptyBlock position)
  | .conditional branches otherwise _ =>
    match ← evaluateBranches call branches scope with
    | some value => return value
    | none => evaluate call otherwise scope
  | .call callee arguments position =>
    let f ← evaluate call callee scope
    let values ← evaluateAll call arguments scope
    call f values position
  | .assign name value isLocal position =>
    quiet (Action.checkAssignable scope name position)
    let v ← evaluate call value scope
    quiet (Action.bindName (·.assignPlace scope name isLocal) name v position)
    return v
  | .binary op left right position =>
    match Action.decisive? op with
    | some decided =>
      let a ← evaluate call left scope
      if (← quiet (Action.expectBoolean op left.position a)) = decided then return .boolean decided
      let b ← evaluate call right scope
      return .boolean (← quiet (Action.expectBoolean op right.position b))
    | none =>
      let a ← evaluate call left scope
      let b ← evaluate call right scope
      quiet (Action.binary op a b position)
  | .unary op operand position =>
    let value ← evaluate call operand scope
    quiet (Action.unary op value position)
  -- a leaf
  | e => quiet (Action.evaluate idle.call e scope)

def evaluateAll (call : Call W) : List Expr → ScopeId → Probed W (List Value)
  | [], _ => pure []
  | e :: rest, scope => do
    let value ← evaluate call e scope
    return value :: (← evaluateAll call rest scope)

def evaluateBody (call : Call W) :
    List Expr → ScopeId → Option Value → Probed W (Option Value)
  | [], _, last => pure last
  | e :: rest, scope, _ => do
    let value ← evaluate call e scope
    evaluateBody call rest scope (some value)

def evaluateBranches (call : Call W) :
    List (Expr × Expr) → ScopeId → Probed W (Option Value)
  | [], _ => pure none
  | (condition, body) :: rest, scope => do
    let c ← evaluate call condition scope
    if ← quiet (Action.expectCondition condition.position c) then
      return some (← evaluate call body scope)
    evaluateBranches call rest scope

end

/-- Calls a value. Each call takes one from the budget. -/
def apply : (fuel : Nat) → Call W
  | 0, _, _, _ => throw .outOfFuel
  | fuel + 1, callee, arguments, position => do
    probe.calling callee arguments position
    match callee with
    | .function closure =>
      if closure.parameters.length != arguments.length then
        quiet (Action.fail (.argumentCount closure.parameters.length arguments.length) position)
      probe.entering callee arguments position
      let scope ← quiet (Action.enclose closure.scope)
      quiet (Action.bindAll scope position closure.parameters arguments)
      evaluate probe (apply fuel) closure.body scope
    | .native native =>
      if !native.arity.accepts arguments.length then
        quiet (Action.fail (.nativeArgumentCount native arguments.length) position)
      probe.entering callee arguments position
      run probe ⟨apply fuel, .ofDepth probe (apply fuel) fuel, fuel⟩ position native arguments
    | .type tag => quiet (Native.convert tag arguments position)
    | other => quiet (Action.fail (.callee other.typeTag) position)

/-! ## Sources -/

def runEntries (call : Call W) (scope : ScopeId) :
    List ScriptEntry → Option Value → Probed W (Option Value)
  | [], last => pure last
  | entry :: rest, _ => do
    let value ← evaluate probe call entry.expr scope
    runEntries call scope rest (some value)

def runScript (fuel : Nat) (script : Script) (scope : ScopeId) :
    EStateM SourceError W (Option Value) := fun w =>
  match runEntries probe (apply probe fuel) scope script.entries none w with
  | .error interruption w => .error (.run interruption) w
  | .ok value w =>
    match script.fault with
    | some e => .error (.read e) w
    | none => .ok value w

/-- Runs a source in a scope with a probe. -/
def runSource (source : String) (scope : ScopeId) : EStateM SourceError W (Option Value) :=
  runScript probe Action.plenty (Script.read source.toList .start) scope

end Probed

end Abacus
