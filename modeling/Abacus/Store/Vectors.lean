import Abacus.Store.Basic

/-!
# Vectors and the values in them

Text, equality and reachability follow a value into its vectors. No vector ever holds itself at any
depth, so a walk down from a value meets each vector at most once on its way, and never goes deeper
than there are vectors; that bound ends each recursion.
-/

namespace Abacus.Store

/-- No way down from a value is longer. -/
def depth (s : Store) : Nat := s.vectors.size + 1

/-- The elements of a vector. -/
def items (s : Store) (id : VectorId) : List Value := (s.vector id).toList

/-! ## Text -/

/-- A value as it is printed, with vectors followed down to a depth. -/
def textTo (s : Store) : Nat → Value → String
  | _, .number n => n.text
  | _, .boolean b => toString b
  | 0, .vector _ => "[]"
  | depth + 1, .vector id => "[" ++ ", ".intercalate ((s.items id).map (s.textTo depth)) ++ "]"
  | _, .sequence _ => "<sequence>"
  | _, .function _ => "<function>"
  | _, .native f => "<native " ++ f.name ++ ">"
  | _, .type tag => tag.name
  | _, .error kind => kind.name

/-- A value as it is printed. -/
def text (s : Store) (value : Value) : String := s.textTo s.depth value

/-! ## Equality

Functions and sequences are equal to themselves only. Two kinds of equality differ in numbers: as the
language compares them, they meet at the higher kind; as they are stored, they must be of one kind.
A vector is equal to itself without a look at its elements. -/

/-- Equality of all values but numbers and vectors. -/
def sameAtom : Value → Value → Bool
  | .boolean a, .boolean b => a == b
  | .sequence a, .sequence b => a == b
  | .function a, .function b => a.number == b.number
  | .native a, .native b => a == b
  | .type a, .type b => a == b
  | .error a, .error b => a == b
  | _, _ => false

/-- Equality with a given comparison of numbers, with vectors followed down to a depth. -/
def equalTo (s : Store) (numbers : Number → Number → Bool) : Nat → Value → Value → Bool
  | _, .number a, .number b => numbers a b
  | 0, .vector a, .vector b => a == b
  | depth + 1, .vector a, .vector b =>
    a == b || ((s.items a).length == (s.items b).length &&
      ((s.items a).zip (s.items b)).all fun pair => s.equalTo numbers depth pair.1 pair.2)
  | _, a, b => sameAtom a b

/-- The comparison that the operators `==` and `!=` and `assert_eq` make: numbers after they have met at
the higher kind, vectors element by element, functions and sequences by identity. -/
def equal (s : Store) (a b : Value) : Bool := s.equalTo Number.equals s.depth a b

/-- The equality of the data type of values, which no program of the language sees: it has the arms of the
operators' comparison, but two numbers must be of one kind. -/
def same (s : Store) (a b : Value) : Bool := s.equalTo Number.same s.depth a b

/-- Two values that are not both vectors are compared by the comparison of numbers or as atoms, however
deep one may look. -/
theorem equalTo_leaf (s : Store) (numbers : Number → Number → Bool) (depth : Nat) {a b : Value}
    (h : ∀ v w, a = .vector v → b ≠ .vector w) :
    s.equalTo numbers depth a b =
      match a, b with
      | .number m, .number n => numbers m n
      | a, b => sameAtom a b := by
  cases a with
  | vector v =>
    cases b with
    | vector w => exact absurd rfl (h v w rfl)
    | _ => cases depth <;> rfl
  | _ => cases depth <;> cases b <;> rfl

/-- Two numbers are equal in the language if they are when they have met at the higher kind. -/
theorem equal_number (s : Store) (m n : Number) :
    s.equal (.number m) (.number n) = m.equals n :=
  s.equalTo_leaf _ _ (by rintro v w ⟨⟩)

/-- Two numbers are the same data if they are of one kind and have the same parts. -/
theorem same_number (s : Store) (m n : Number) : s.same (.number m) (.number n) = m.same n :=
  s.equalTo_leaf _ _ (by rintro v w ⟨⟩)

/-- On atoms the two kinds of equality agree: truth values, types, errors and built-in functions are
equal as they are, functions and sequences if they are one. -/
theorem equal_and_same_of_atoms (s : Store) {a b : Value} (hnumber : ∀ m n, a = .number m → b ≠ .number n)
    (hvector : ∀ v w, a = .vector v → b ≠ .vector w) :
    s.equal a b = sameAtom a b ∧ s.same a b = sameAtom a b := by
  rw [equal, same, s.equalTo_leaf _ _ hvector, s.equalTo_leaf _ _ hvector]
  cases a with
  | number m =>
    cases b with
    | number n => exact absurd rfl (hnumber m n rfl)
    | _ => exact ⟨rfl, rfl⟩
  | _ => cases b <;> exact ⟨rfl, rfl⟩

/-! ## Reachability -/

/-- Whether a value is a vector or holds it, looking down to a depth. -/
def reachesTo (s : Store) (target : VectorId) : Nat → Value → Bool
  | 0, .vector id => id == target
  | depth + 1, .vector id => id == target || (s.items id).any (s.reachesTo target depth)
  | _, _ => false

/-- Whether a value is a vector or holds it at any depth. -/
def reaches (s : Store) (value : Value) (target : VectorId) : Bool :=
  s.reachesTo target s.depth value

/-! ## Character codes -/

/-- The text whose character codes a vector holds; the first element that is none is the fault. -/
def ascii? (s : Store) (id : VectorId) : Except Fault String := do
  let characters ← (s.items id).mapM fun item =>
    match item with
    | .number (.integer code) =>
      if 0 ≤ code.toInt ∧ code.toInt ≤ 127 then Except.ok (Char.ofNat code.toInt.toNat)
      else Except.error (Fault.notAscii (s.text item))
    | _ => Except.error (Fault.notAscii (s.text item))
  return String.ofList characters

end Abacus.Store
