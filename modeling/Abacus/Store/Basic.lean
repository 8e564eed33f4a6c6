import Abacus.Value.Basic

/-!
# The store

The store holds everything that a running program can change: scopes, vectors, sequences with the
sources that they read from, and what has been printed. Names of the store's parts are handed out in
order and are never taken back, so a part stays what it is for as long as the program runs.
-/

namespace Abacus

/-- A scope binds names. It keeps the scopes around it, innermost first, and the names that nobody
may bind. -/
structure Scope where
  bindings : List (String × Value)
  around : List ScopeId
  reserved : List String

/-- A step that a sequence takes with each raw element. -/
inductive Transformer where
  | map (f : Value)
  | filter (predicate : Value)

/-- The state of a generator of raw elements. -/
inductive Generator where
  /-- `f 0`, `f 1`, and so on up to a limit; the element at `index` may be computed already. -/
  | index (f : Value) (index : Nat) (limit : Option Int) (cached : Option Value)
      (position : Position)
  /-- A seed, and the function of the element before; the next element may be known already. -/
  | iterate (f : Value) (upcoming previous : Option Value) (position : Position)
  /-- Numbers in equal steps, the end excluded. -/
  | range (current stop step : Number) (position : Position)
  /-- The elements of a vector, read when they are asked for. -/
  | vector (items : VectorId) (index : Nat) (position : Position)
  /-- Pairs of the elements of two sequences. -/
  | zip (left right : SequenceId)
  /-- At most this many elements of a sequence. -/
  | take (sequence : SequenceId) (remaining : Nat)

/-- A generator that sequences share, with the number of elements consumed from it. -/
structure Source where
  generator : Generator
  advanced : Nat
  /-- Whether the generator is at work, so that it cannot be asked. -/
  busy : Bool

/-- A sequence reads from a source and passes each raw element through its transformers. Its next
element may be known already; it holds good as long as nothing has been consumed from the source
since. -/
structure Sequence where
  source : SourceId
  transformers : List Transformer
  /-- The next element with the number of elements consumed when it was found. -/
  pending : Option (Nat × Value)
  /-- Where the sequence was built. -/
  position : Position

structure Store where
  scopes : Array Scope
  vectors : Array (Array Value)
  sources : Array Source
  sequences : Array Sequence
  /-- How many functions have been created. -/
  closures : Nat
  output : String

namespace Store

def empty : Store := ⟨#[], #[], #[], #[], 0, ""⟩

instance : Inhabited Store := ⟨empty⟩

/-! ## Parts by name

A name that the store has not handed out stands for an empty part. -/

def scope (s : Store) (id : ScopeId) : Scope := s.scopes.getD id.index ⟨[], [], []⟩

def vector (s : Store) (id : VectorId) : Array Value := s.vectors.getD id.index #[]

def source (s : Store) (id : SourceId) : Source :=
  s.sources.getD id.index ⟨.vector ⟨0⟩ 0 .start, 0, false⟩

def sequence (s : Store) (id : SequenceId) : Sequence :=
  s.sequences.getD id.index ⟨⟨0⟩, [], none, .start⟩

/-! ## New parts -/

def addScope (s : Store) (scope : Scope) : ScopeId × Store :=
  (⟨s.scopes.size⟩, { s with scopes := s.scopes.push scope })

def addVector (s : Store) (items : Array Value) : VectorId × Store :=
  (⟨s.vectors.size⟩, { s with vectors := s.vectors.push items })

def addSource (s : Store) (generator : Generator) : SourceId × Store :=
  (⟨s.sources.size⟩, { s with sources := s.sources.push ⟨generator, 0, false⟩ })

def addSequence (s : Store) (sequence : Sequence) : SequenceId × Store :=
  (⟨s.sequences.size⟩, { s with sequences := s.sequences.push sequence })

/-! ## Changes to parts -/

def modifyScope (s : Store) (id : ScopeId) (f : Scope → Scope) : Store :=
  { s with scopes := s.scopes.modify id.index f }

/-- Replaces an element in place; the length of a vector never changes. -/
def setElement (s : Store) (id : VectorId) (index : Nat) (value : Value) : Store :=
  { s with vectors := s.vectors.modify id.index (·.setIfInBounds index value) }

def modifySource (s : Store) (id : SourceId) (f : Source → Source) : Store :=
  { s with sources := s.sources.modify id.index f }

def setPending (s : Store) (id : SequenceId) (pending : Option (Nat × Value)) : Store :=
  { s with sequences := s.sequences.modify id.index ({ · with pending }) }

/-- Writes a line. -/
def printLine (s : Store) (line : String) : Store :=
  { s with output := s.output ++ line ++ "\n" }

end Store

end Abacus
