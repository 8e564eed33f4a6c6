import Abacus.Store.Basic

/-!
# Scopes

A name is looked up in a scope, then in the scopes around it, from the innermost. Writing to a name
changes the binding that looking it up would find; only an assignment marked local, or one to a name
that is bound nowhere, makes a new binding, and it makes it in the scope where it stands.

The outermost scope of a program binds the built-in functions, constants and types, and their names
are reserved in every scope inside it.
-/

namespace Abacus

/-- What goes wrong with a name. -/
inductive NameFault where
  | undefined (name : String)
  | reserved (name : String)
deriving DecidableEq

def NameFault.toFault : NameFault → Fault
  | .undefined name => .undefinedVariable name
  | .reserved name => .reservedName name

namespace Scope

/-- The value that a scope itself binds to a name. -/
def get? (scope : Scope) (name : String) : Option Value := scope.bindings.lookup name

def binds (scope : Scope) (name : String) : Bool := (scope.get? name).isSome

/-- Replaces the value of the first binding of a name. -/
def replace (name : String) (value : Value) : List (String × Value) → List (String × Value)
  | [] => []
  | (other, old) :: bindings =>
    if other = name then (other, value) :: bindings
    else (other, old) :: replace name value bindings

/-- Binds a name in this scope, in place of a binding that it has already. -/
def put (scope : Scope) (name : String) (value : Value) : Scope :=
  { scope with
    bindings :=
      if scope.binds name then replace name value scope.bindings
      else (name, value) :: scope.bindings }

/-- A scope inside another. -/
def inside (outer : Scope) (id : ScopeId) : Scope := ⟨[], id :: outer.around, outer.reserved⟩

/-! ## The outermost scope -/

/-- The named constants. -/
def constants : List (String × Value) :=
  [("pi", .number (.real 3.141592653589793)), ("tau", .number (.real 6.283185307179586)),
    ("inf", .number (.real Real.infinity))]

/-- Everything that is there before a program begins. -/
def builtins : List (String × Value) :=
  Native.all.map (fun native => (native.name, .native native)) ++ constants ++
    TypeTag.all.map (fun tag => (tag.name, .type tag))

/-- The outermost scope of a program. -/
def global : Scope := ⟨builtins, [], builtins.map Prod.fst⟩

end Scope

namespace Store

/-- A scope with those around it, innermost first. -/
def chain (s : Store) (id : ScopeId) : List ScopeId := id :: (s.scope id).around

/-- The innermost scope of a chain that binds a name. -/
def binder? (s : Store) (id : ScopeId) (name : String) : Option ScopeId :=
  (s.chain id).find? fun scope => (s.scope scope).binds name

/-- The value of a name as seen from a scope. -/
def lookup (s : Store) (id : ScopeId) (name : String) : Except NameFault Value :=
  match (s.chain id).findSome? fun scope => (s.scope scope).get? name with
  | some value => .ok value
  | none => .error (.undefined name)

/-- Whether a name is bound as seen from a scope. -/
def contains (s : Store) (id : ScopeId) (name : String) : Bool :=
  (s.chain id).any fun scope => (s.scope scope).binds name

/-- The names that are visible from a scope; one that is shadowed comes up again. -/
def visibleNames (s : Store) (id : ScopeId) : List String :=
  (s.chain id).flatMap fun scope => (s.scope scope).bindings.map Prod.fst

/-- The names that are visible from a scope, each once and in order. -/
def sortedNames (s : Store) (id : ScopeId) : List String :=
  ((s.visibleNames id).eraseDups).mergeSort (fun a b => !decide (b < a))

def isReserved (s : Store) (id : ScopeId) (name : String) : Bool :=
  (s.scope id).reserved.contains name

/-- Fails for names that nobody may bind. -/
def checkAssignable (s : Store) (id : ScopeId) (name : String) : Except NameFault Unit :=
  if s.isReserved id name then .error (.reserved name) else .ok ()

/-- Opens a scope inside another. -/
def enclose (s : Store) (id : ScopeId) : ScopeId × Store := s.addScope ((s.scope id).inside id)

/-! ### Writing

Writing to a name first finds the scope in which it is bound, which may fail, and then binds it
there. -/

/-- The scope in which a definition binds a name: the one where it stands, whatever is bound around
it. -/
def definePlace (s : Store) (id : ScopeId) (name : String) : Except NameFault ScopeId := do
  s.checkAssignable id name
  return id

/-- The scope with the innermost binding of a name. -/
def setPlace (s : Store) (id : ScopeId) (name : String) : Except NameFault ScopeId :=
  match s.binder? id name with
  | some scope => .ok scope
  | none => .error (.undefined name)

/-- The scope in which an assignment of a program binds a name. -/
def assignPlace (s : Store) (id : ScopeId) (name : String) (isLocal : Bool) :
    Except NameFault ScopeId := do
  s.checkAssignable id name
  if !isLocal && s.contains id name then s.setPlace id name else return id

/-- Binds a name in a scope. -/
def bindName (s : Store) (id : ScopeId) (name : String) (value : Value) : Store :=
  s.modifyScope id (·.put name value)

/-- Binds a name in a scope, whatever is bound around it. -/
def define (s : Store) (id : ScopeId) (name : String) (value : Value) : Except NameFault Store :=
  (s.definePlace id name).map (s.bindName · name value)

/-- Changes the innermost binding of a name. -/
def set (s : Store) (id : ScopeId) (name : String) (value : Value) : Except NameFault Store :=
  (s.setPlace id name).map (s.bindName · name value)

/-- Assigns to a name as a program does. -/
def assign (s : Store) (id : ScopeId) (name : String) (value : Value) (isLocal : Bool) :
    Except NameFault Store :=
  (s.assignPlace id name isLocal).map (s.bindName · name value)

/-- The names that programs have bound in a scope, with their values. -/
def ownBindings (s : Store) (id : ScopeId) : List (String × Value) :=
  (s.scope id).bindings.filter fun binding => !s.isReserved id binding.1

/-- A store that holds the outermost scope of a program and nothing else. -/
def initial : ScopeId × Store := empty.addScope .global

end Store

end Abacus
