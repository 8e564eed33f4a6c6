import Abacus.Proofs.Run.Parameters
import Abacus.Proofs.Sequence.Reading

/-!
# Data

A reading of numbers, Booleans and the pairs that are made of them: a vector stands for what its
elements stand for, so two vectors with the same elements are the same datum.

**The laws.** The built-in functions of one number are effect-free (`Datum.numeric_effectFree`), and
so is every function of the program that compares its argument with a number or combines the two
(`Datum.operating_effectFree`).
-/

namespace Abacus

/-- Data that a value may show: numbers, booleans and pairs. -/
inductive Datum where
  | number (n : Number)
  | boolean (b : Bool)
  | pair (first second : Datum)
deriving DecidableEq

/-- The function of one parameter that applies an operation to its argument and a number. -/
def Closure.operating (number : Nat) (scope : ScopeId) (parameter : String) (op : BinaryOp)
    (n : Number) (p : Position) : Closure :=
  ⟨number, [parameter], .binary op (.identifier parameter p) (.literal (.number n) p) p, scope⟩

/-- A call of a function with one parameter evaluates its body in a store that has grown by a scope
in which the parameter is bound. -/
theorem Action.apply_unary {x : String} {scope : ScopeId} {s : Store}
    (hreserved : x ∉ (s.scope scope).reserved) (fuel number : Nat) (body : Expr) (v : Value)
    (p : Position) :
    ∃ s' inner, Action.apply (fuel + 1) (.function ⟨number, [x], body, scope⟩) [v] p s =
        Action.evaluate (Action.apply fuel) body inner s' ∧
      s'.lookup inner x = .ok v ∧ s.Grows s' := by
  have hfree : (s.enclose scope).2.isReserved ⟨s.scopes.size⟩ x = false := by
    rw [Store.isReserved, Store.scope_enclose]
    simpa [Scope.inside] using hreserved
  have hcall : Action.callScope ⟨number, [x], body, scope⟩ [v] p s =
      .ok ⟨s.scopes.size⟩ ((s.enclose scope).2.bindName ⟨s.scopes.size⟩ x v) := by
    show (Action.bindAll ⟨s.scopes.size⟩ p [x] [v] >>= fun _ => _) _ = _
    rw [Action.bindAll, bind_assoc, Action.bind_ok (Action.define_of_free hfree)]
    rfl
  have hscope : ((s.enclose scope).2.bindName ⟨s.scopes.size⟩ x v).scope ⟨s.scopes.size⟩ =
      ((s.scope scope).inside scope).put x v := by
    rw [Store.scope_bindName_self (by simp [Store.enclose, Store.addScope]), Store.scope_enclose]
  refine ⟨_, ⟨s.scopes.size⟩, ?_, ?_, s.grows_enclose_bindName scope x v⟩
  · rw [Action.apply_function fuel rfl, Action.bind_ok hcall]
  · rw [Store.lookup, Store.chain, List.findSome?_cons, hscope, Scope.get?_put_self]

namespace Datum

/-- A value stands for a datum in a store. -/
def Shows (s : Store) : Value → Datum → Prop
  | v, .number n => v = .number n
  | v, .boolean b => v = .boolean b
  | v, .pair x y => ∃ id a b, v = .vector id ∧ id.index < s.vectors.size ∧ s.vector id = #[a, b] ∧
      Shows s a x ∧ Shows s b y

/-- What a value shows it shows while the store keeps what it had. -/
theorem Shows.keeps {own : SourceId → Prop} {s s' : Store} (kept : s.Keeps own s') {d : Datum} :
    ∀ {v : Value}, Shows s v d → Shows s' v d := by
  induction d with
  | number n => exact id
  | boolean b => exact id
  | pair x y ihx ihy =>
    rintro v ⟨id, a, b, rfl, hlt, hitems, ha, hb⟩
    exact ⟨id, a, b, rfl, Nat.lt_of_lt_of_le hlt kept.size_vectors,
      (kept.vector hlt).trans hitems, ihx ha, ihy hb⟩

/-- A value stands for one datum. -/
theorem Shows.unique {s : Store} {d : Datum} :
    ∀ {v : Value} {d' : Datum}, Shows s v d → Shows s v d' → d = d' := by
  induction d with
  | number n =>
    rintro v d' rfl h
    cases d' with
    | number m =>
      cases h
      rfl
    | boolean c => cases h
    | pair x y =>
      obtain ⟨id, a, b, h, -⟩ := h
      cases h
  | boolean b =>
    rintro v d' rfl h
    cases d' with
    | number m => cases h
    | boolean c =>
      cases h
      rfl
    | pair x y =>
      obtain ⟨id, a, b, h, -⟩ := h
      cases h
  | pair x y ihx ihy =>
    rintro v d' ⟨id, a, b, rfl, -, hitems, ha, hb⟩ h
    cases d' with
    | number m | boolean c => cases h
    | pair x' y' =>
      obtain ⟨id', a', b', hv, -, hitems', ha', hb'⟩ := h
      cases hv
      cases hitems.symm.trans hitems'
      rw [ihx ha ha', ihy hb hb']

/-- The type of a value that shows the datum. -/
def typeTag : Datum → TypeTag
  | .number n => (Value.number n).typeTag
  | .boolean _ => .boolean
  | .pair _ _ => .vector

/-- What a predicate says that gives the datum. -/
def verdict : Datum → Except TypeTag Bool
  | .boolean b => .ok b
  | other => .error other.typeTag

/-- What a number or a truth value of an operation stands for. -/
def ofValue : Value → Datum
  | .number n => .number n
  | .boolean b => .boolean b
  | _ => .boolean false

/-- What a function of one number makes of a datum. -/
def applyNumeric (f : NumericFunction) (p : Position) : Datum → Except Interruption Datum
  | .number n =>
    match f.apply n with
    | .ok m => .ok (.number m)
    | .error failure => .error (.fault ⟨.number failure, p⟩)
  | d => .error (.fault ⟨.argument f.name .number d.typeTag, p⟩)

/-- What an operation with a number on the right makes of a datum. -/
def applyOperation (op : BinaryOp) (n : Number) (p : Position) : Datum → Except Interruption Datum
  | .number m =>
    match op.onNumbers m n with
    | .ok v => .ok (ofValue v)
    | .error fault => .error (.fault ⟨fault, p⟩)
  | d => .error (.fault ⟨.operands op d.typeTag (Value.number n).typeTag, p⟩)

/-- What functions make of data. Only functions that are known to be effect-free are told here. -/
def apply : Value → Datum → Position → Except Interruption Datum
  | .native (.numeric f), d, p => applyNumeric f p d
  | .function ⟨_, [_], .binary op (.identifier _ _) (.literal (.number n) _) p, _⟩, d, _ =>
    applyOperation op n p d
  | _, _, _ => .error .outOfFuel

/-- The reading of values as data. -/
def reading (own : SourceId → Prop) : Reading own Datum where
  means := Shows
  number := .number
  pair := .pair
  verdict := verdict
  apply := apply
  means_keeps kept h := h.keeps kept
  means_number _ _ := rfl
  means_pair hlt hitems ha hb := ⟨_, _, _, rfl, hlt, hitems, ha, hb⟩
  verdict_eq {s v d} h := by
    cases d with
    | number n | boolean b =>
      cases h
      rfl
    | pair x y =>
      obtain ⟨id, a, b, rfl, -⟩ := h
      rfl

section EffectFree

variable {own : SourceId → Prop} {start : Store} {fuel : Nat}

/-- **The built-in functions of one number are effect-free.** -/
theorem numeric_effectFree (f : NumericFunction) :
    (reading own).EffectFree (Action.apply (fuel + 1)) start (.native (.numeric f)) := by
  intro s v d p _ hv
  have hrun : Action.apply (fuel + 1) (.native (.numeric f)) [v] p s =
      (Native.expectNumber f.name p v >>= fun n => do
        return .number (← Action.ofNumeric (f.apply n) p)) s := rfl
  rw [hrun]
  cases d with
  | number n =>
    cases hv
    show Ended _ s (applyNumeric f p (.number n)) _
    simp only [Native.expectNumber, applyNumeric, Action.bind_pure]
    cases f.apply n with
    | ok m => exact .value rfl (.refl _ _)
    | error failure => exact .interruption (.refl _ _)
  | boolean b =>
    cases hv
    exact .interruption (.refl _ _)
  | pair x y =>
    obtain ⟨id, a, b, rfl, -⟩ := hv
    exact .interruption (.refl _ _)

/-- The operations that give a number or a truth value, or fail, whatever is on the left of a
number. -/
def IsPlain : BinaryOp → Prop
  | .add | .sub | .rem | .pow | .less | .lessEq | .greater | .greaterEq => True
  | .mul | .div | .eq | .notEq | .and | .or => False

/-- The result of an operation on numbers stands for itself. -/
theorem shows_onNumbers {op : BinaryOp} {m n : Number} {v : Value} {s : Store}
    (h : op.onNumbers m n = .ok v) : Shows s v (ofValue v) := by
  have hkind : (∃ k, v = .number k) ∨ ∃ b, v = .boolean b := by
    cases op with
    | add | sub | mul | pow =>
      cases h
      exact .inl ⟨_, rfl⟩
    | div =>
      simp only [BinaryOp.onNumbers] at h
      cases hq : m.div n with
      | ok k =>
        rw [hq] at h
        cases h
        exact .inl ⟨k, rfl⟩
      | error failure =>
        rw [hq] at h
        cases h
    | rem =>
      simp only [BinaryOp.onNumbers] at h
      cases hq : m.rem n with
      | ok k =>
        rw [hq] at h
        cases h
        exact .inl ⟨k, rfl⟩
      | error failure =>
        rw [hq] at h
        cases h
    | eq | notEq =>
      cases h
      exact .inr ⟨_, rfl⟩
    | less | lessEq | greater | greaterEq =>
      simp only [BinaryOp.onNumbers] at h
      cases hq : m.compare n with
      | ok order =>
        rw [hq] at h
        cases h
        exact .inr ⟨_, rfl⟩
      | error failure =>
        rw [hq] at h
        cases h
    | and | or => cases h
  obtain ⟨k, rfl⟩ | ⟨b, rfl⟩ := hkind
  · rfl
  · rfl

/-- An operation with a number on the right makes of a value what it makes of its datum. -/
theorem binary_ends {op : BinaryOp} (plain : IsPlain op) (n : Number) (p : Position) {s : Store}
    {v : Value} {d : Datum} (hv : Shows s v d) :
    Ended Shows s (applyOperation op n p d) (Action.binary op v (.number n) p s) := by
  rw [Action.binary, Action.view_bind]
  cases d with
  | number m =>
    cases hv
    have hbinary : Action.binaryTo p s.depth op (.number m) (.number n) =
        match op.onNumbers m n with
        | .ok v => pure v
        | .error fault => Action.fail fault p := by
      cases op <;> first | exact plain.elim | rfl
    rw [hbinary, applyOperation]
    cases hres : op.onNumbers m n with
    | ok v => exact .value (shows_onNumbers hres) (.refl _ _)
    | error fault => exact .interruption (.refl _ _)
  | boolean b =>
    cases hv
    cases op <;> first | exact plain.elim | exact .interruption (.refl _ _)
  | pair x y =>
    obtain ⟨id, a, b, rfl, -⟩ := hv
    cases op <;> first | exact plain.elim | exact .interruption (.refl _ _)

/-- **A function that combines its argument with a number is effect-free.** -/
theorem operating_effectFree {number : Nat} {scope : ScopeId} {x : String} {op : BinaryOp}
    (plain : IsPlain op) {n : Number} {p : Position} (hscope : scope.index < start.scopes.size)
    (hreserved : x ∉ (start.scope scope).reserved) :
    (reading own).EffectFree (Action.apply (fuel + 1)) start
      (.function (.operating number scope x op n p)) := by
  intro s v d p' kept hv
  have hreserved' : x ∉ (s.scope scope).reserved := by
    rw [kept.scope hscope]
    exact hreserved
  obtain ⟨s', inner, hcall, hlookup, grown⟩ := Action.apply_unary hreserved' fuel number
    (.binary op (.identifier x p) (.literal (.number n) p) p) v p'
  rw [Closure.operating, hcall]
  refine Ended.after ?_ grown
  have hdecisive : Action.decisive? op = none := by
    cases op <;> first | exact plain.elim | rfl
  have hleft : Action.evaluate (Action.apply fuel) (.identifier x p) inner s' = .ok v s' := by
    rw [Action.evaluate, Action.lookup, Action.ofName, hlookup]
  rw [Action.evaluate, hdecisive]
  show Ended _ s' _ ((Action.evaluate _ (.identifier x p) inner >>= _) s')
  rw [Action.bind_ok hleft]
  exact binary_ends plain n p (hv.keeps grown)

end EffectFree

end Datum

/-- A store with one scope, with sources and with sequences. -/
def Store.withSources (sources : Array Source) (sequences : Array Sequence) : Store :=
  { Store.empty with scopes := #[⟨[], [], []⟩], sources, sequences }

end Abacus
