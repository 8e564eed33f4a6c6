import Abacus.Run.Operators
import Abacus.Sequence.Cursor

/-!
# What built-in functions do

A built-in function is run with as many arguments as its arity accepts. It checks their types from
the first to the last, and reports its faults at the position of the call.
-/

namespace Abacus

/-- How built-in functions call functions and read sequences. -/
structure Machine where
  call : Call
  reader : Reader
  /-- The number of rounds that reading a sequence may take. -/
  fuel : Nat

namespace Native

/-! ## Arguments -/

/-- Refuses an argument of the wrong type. -/
def refuse {α : Type} (owner : String) (wanted : Wanted) (found : Value) (position : Position) :
    Action α :=
  Action.fail (.argument owner wanted found.typeTag) position

def expectNumber (owner : String) (position : Position) : Value → Action Number
  | .number n => pure n
  | other => refuse owner .number other position

/-- An integer that counts something or is an index. -/
def expectCount (owner : String) (position : Position) : Value → Action Nat
  | .number (.integer n) =>
    if n.toInt < 0 then Action.fail (.negativeCount owner n) position else pure n.toInt.toNat
  | other => refuse owner .integer other position

def expectCallable (owner : String) (position : Position) (value : Value) : Action Unit :=
  if value.isCallable then pure () else refuse owner .function value position

def expectVector (owner : String) (position : Position) : Value → Action VectorId
  | .vector id => pure id
  | other => refuse owner .vector other position

/-- An index into a vector. -/
def expectIndex (owner : String) (position : Position) (id : VectorId) (value : Value) :
    Action Nat := do
  let i ← expectCount owner position value
  let length := (← Action.view (·.vector id)).size
  if i < length then return i
  Action.fail (.outOfBounds i length) position

def expectSequence (owner : String) (position : Position) : Value → Action SequenceId
  | .sequence id => pure id
  | other => refuse owner .sequence other position

/-- A function that can be called without arguments. One that needs some is misused, and that is not
the kind of fault that is recovered from. -/
def expectThunk (owner : String) (position : Position) : Value → Action Unit
  | .function closure =>
    if closure.parameters.isEmpty then pure () else Action.fail (.notAThunk owner) position
  | .native native =>
    if native.arity.accepts 0 then pure () else Action.fail (.notAThunk owner) position
  | other => refuse owner .function other position

/-! ## Numbers and types -/

/-- The first of the numbers that no other one comes before in the given direction. -/
def extremum (owner : String) (direction : Ordering) (position : Position) :
    Number → List Value → Action Number
  | best, [] => pure best
  | best, value :: rest => do
    let n ← expectNumber owner position value
    let order ← Action.ofNumeric (n.compare best) position
    extremum owner direction position (if order == some direction then n else best) rest

/-- The logarithm of a number to a base, the natural one if there is none. -/
def logarithm (position : Position) (x : Value) (base : Option Value) : Action Value := do
  let x ← expectNumber "log" position x
  match base with
  | none => return .number x.log
  | some base =>
    let base ← expectNumber "log" position base
    return .number (← Action.ofNumeric (x.log.div base.log) position)

/-- A type that is called converts its arguments. -/
def convert (tag : TypeTag) (arguments : List Value) (position : Position) : Action Value :=
  match tag, arguments with
  | .integer, [x] => do
    let n ← expectNumber tag.name position x
    return .integer (← Action.ofNumeric n.toInteger position)
  | .real, [x] => do
    let n ← expectNumber tag.name position x
    return .number (.real (← Action.ofNumeric n.toReal position))
  | .complex, [x] => do
    let n ← expectNumber tag.name position x
    return .number (.complex n.toComplex)
  | .complex, [re, im] => do
    let re ← expectNumber tag.name position re
    let re ← Action.ofNumeric re.toReal position
    let im ← expectNumber tag.name position im
    let im ← Action.ofNumeric im.toReal position
    return .number (.complex ⟨re, im⟩)
  | .integer, _ | .real, _ | .complex, _ =>
    Action.fail (.conversionArgumentCount tag arguments.length) position
  | _, _ => Action.fail (.conversion tag) position

/-! ## Vectors -/

/-- The elements of a list for which a predicate holds. -/
def filterItems (call : Call) (predicate : Value) (position : Position) (kept : List Value) :
    List Value → Action (List Value)
  | [] => pure kept.reverse
  | item :: rest => do
    match ← call predicate [item] position with
    | .boolean true => filterItems call predicate position (item :: kept) rest
    | .boolean false => filterItems call predicate position kept rest
    | other => Action.fail (.predicate other.typeTag) position

/-- Replaces an element of a vector; a vector never comes to hold itself. -/
def setElement (position : Position) (vector index value : Value) : Action Value := do
  let id ← expectVector "set" position vector
  let i ← expectIndex "set" position id index
  if ← Action.view (·.reaches value id) then Action.fail .cyclicVector position
  modify (·.setElement id i value)
  return vector

/-- The text whose character codes a vector holds. -/
def asciiText (value : Value) (position : Position) : Action String := do
  let id ← expectVector "print_ascii" position value
  match ← Action.view (·.ascii? id) with
  | .ok line => return line
  | .error e => Action.fail e position

/-! ## Sequences -/

/-- A bound of a range. -/
def expectBound (position : Position) (value : Value) : Action Number := do
  match ← expectNumber "range" position value with
  | .complex _ => refuse "range" .realBound value position
  | n => return n

def newRange (position : Position) (bounds : List Value) : Action Value := do
  match ← bounds.mapM (expectBound position) with
  | [start, stop] => make start stop (.integer 1)
  | [start, stop, step] => make start stop step
  | _ => throw .misapplied
where
  make (start stop step : Number) : Action Value :=
    match Generator.ofRange start stop step position with
    | .ok generator => Sequence.create generator position
    | .error e => throw (.fault e)

/-- A value as a sequence: a vector is read through a new one. -/
def toSequence (owner : String) (position : Position) : Value → Action Value
  | .sequence id => pure (.sequence id)
  | .vector id => Sequence.create (.vector id 0 position) position
  | other => refuse owner .collection other position

def newZip (position : Position) (left right : Value) : Action Value := do
  let left ← toSequence "zip" position left
  let right ← toSequence "zip" position right
  match left, right with
  | .sequence a, .sequence b => Sequence.create (.zip a b) position
  | _, _ => throw .misapplied

/-! ## Running -/

/-- What a built-in function does with its arguments. -/
def run (machine : Machine) (position : Position) : Native → List Value → Action Value
  | .numeric f, [x] => do
    let n ← expectNumber f.name position x
    return .number (← Action.ofNumeric (f.apply n) position)
  | .log, [x] => logarithm position x none
  | .log, [x, base] => logarithm position x (some base)
  | .min, first :: rest => do
    let n ← expectNumber "min" position first
    return .number (← extremum "min" .lt position n rest)
  | .max, first :: rest => do
    let n ← expectNumber "max" position first
    return .number (← extremum "max" .gt position n rest)
  | .type, [x] => pure (.type x.typeTag)
  | .is, [x, .type tag] => pure (.boolean (x.typeTag.isSubtypeOf tag))
  | .is, [_, other] => refuse "is" .type other position
  | .len, [x] => do
    let id ← expectVector "len" position x
    return .ofNat (← Action.view (·.vector id)).size
  | .get, [x, index] => do
    let id ← expectVector "get" position x
    let i ← expectIndex "get" position id index
    let items ← Action.view (·.vector id)
    match items[i]? with
    | some value => return value
    | none => Action.fail (.outOfBounds i items.size) position
  | .set, [x, index, value] => setElement position x index value
  | .zeros, [count] => do
    Action.newVector (List.replicate (← expectCount "zeros" position count) (.integer 0))
  | .seq, [f] => do
    expectCallable "seq" position f
    Sequence.create (.index f 0 none none position) position
  | .seq, [f, count] => do
    expectCallable "seq" position f
    let limit ← expectCount "seq" position count
    Sequence.create (.index f 0 (some limit) none position) position
  | .iterate, [seed, f] => do
    expectCallable "iterate" position f
    Sequence.create (.iterate f (some seed) none position) position
  | .range, bounds => newRange position bounds
  | .iter, [x] => toSequence "iter" position x
  | .map, [x, f] => do
    expectCallable "map" position f
    match x with
    | .vector id =>
      Action.newVector (← (← Action.items id).mapM fun item => machine.call f [item] position)
    | .sequence id => Sequence.derive id (.map f)
    | other => refuse "map" .collection other position
  | .filter, [x, f] => do
    expectCallable "filter" position f
    match x with
    | .vector id => Action.newVector (← filterItems machine.call f position [] (← Action.items id))
    | .sequence id => Sequence.derive id (.filter f)
    | other => refuse "filter" .collection other position
  | .reduce, [x, seed, f] => do
    expectCallable "reduce" position f
    let step (state item : Value) : Action Value := machine.call f [state, item] position
    match x with
    | .vector id => (← Action.items id).foldlM step seed
    | .sequence id =>
      Sequence.foldAll machine.call machine.reader id position step machine.fuel seed
    | other => refuse "reduce" .collection other position
  | .take, [x, count] => do
    let n ← expectCount "take" position count
    match x with
    | .vector id => Action.newVector ((← Action.items id).take n)
    | .sequence id => Sequence.create (.take id n) position
    | other => refuse "take" .collection other position
  | .skip, [x, count] => do
    let n ← expectCount "skip" position count
    match x with
    | .vector id => Action.newVector ((← Action.items id).drop n)
    | .sequence id => do
      Sequence.skip machine.call machine.reader id n
      return x
    | other => refuse "skip" .collection other position
  | .zip, [left, right] => newZip position left right
  | .collect, [x] => do
    match x with
    | .vector _ => return x
    | other => do
      let id ← expectSequence "collect" position other
      Action.newVector (← Sequence.collect machine.call machine.reader machine.fuel id)
  | .next, [x] => do
    let id ← expectSequence "next" position x
    Sequence.next machine.call machine.reader machine.fuel id position
  | .peek, [x] => do
    let id ← expectSequence "peek" position x
    Sequence.peek machine.call machine.reader machine.fuel id position
  | .hasNext, [x] => do
    let id ← expectSequence "has_next" position x
    return .boolean (!(← Sequence.atEnd machine.call machine.reader machine.fuel id))
  | .tryOr, [body, instead] => do
    expectThunk "try_or" position body
    Action.recover (machine.call body [] position) fun _ => pure instead
  | .tryCatch, [body, handler] => do
    expectThunk "try_catch" position body
    expectCallable "try_catch" position handler
    Action.recover (machine.call body [] position) fun fault =>
      machine.call handler [.error fault.kind] position
  | .assert, [x] => do
    match x with
    | .boolean true => return x
    | other => Action.fail (.notTrue (← Action.view (·.text other))) position
  | .assertEq, [a, b] => do
    if ← Action.view (·.equal a b) then return .boolean true
    Action.fail (.notEqual (← Action.view (·.text a)) (← Action.view (·.text b))) position
  | .print, first :: rest => do
    let line ← Action.view fun s => " ".intercalate ((first :: rest).map s.text)
    modify (·.printLine line)
    return (first :: rest).getLastD first
  | .printAscii, [x] => do
    let line ← asciiText x position
    modify (·.printLine line)
    return x
  | .exit, [x] => do
    match x with
    | .number (.integer code) =>
      if Int32.minValue.toInt ≤ code.toInt ∧ code.toInt ≤ Int32.maxValue.toInt then
        throw (.exit code.toInt)
      Action.fail (.exitCode code) position
    | other => refuse "exit" .integer other position
  | _, _ => throw .misapplied

end Native

end Abacus
