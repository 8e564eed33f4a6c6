import Abacus.Proofs.Run.Steps
import Abacus.Proofs.Syntax.Placement
import Abacus.Proofs.Syntax.WellFormed

/-!
# Disciplines

A discipline asks something of the positions at which a program reports faults and of the way in
which it ends; and it may ask for order in what the program holds. What it asks of functions and of
positions it asks wherever they are kept, in scopes, vectors, sources and sequences, because they may
be taken from there much later.

**The law** (`Action.Obeys.bind`): an action made of actions that obey a discipline obeys it.
-/

namespace Abacus

/-- What a program may hold and how it may end. -/
structure Discipline where
  /-- Where faults may be reported. -/
  place : Position → Prop
  /-- A sequence that the store does not have would report there. -/
  start : place .start
  /-- Whether a program may end by an exit. -/
  exits : Prop
  /-- Whether a built-in function may be run with arguments that its arity refuses. -/
  misapplies : Prop
  /-- Whether functions have well-formed bodies and different parameters, errors that are values have
  been raised by running programs, and sequences made by `iterate` know what to go on from. -/
  orderly : Prop

variable {D : Discipline}

/-! ## Parts of a store under a discipline -/

/-- A function reports where the discipline lets it; where order is asked for, its parameters differ
and its body is well formed. -/
structure Closure.Under (D : Discipline) (c : Closure) : Prop where
  body : c.body.Placed D.place
  orderly : D.orderly → c.parameters.Nodup ∧ c.body.WellFormed

/-- Only functions and errors carry something that a discipline asks about: a vector or a sequence
is a name for a part of the store, which `Store.Under` speaks of. -/
def Value.Under (D : Discipline) : Value → Prop
  | .function closure => closure.Under D
  | .error kind => D.orderly → kind.phase = .runtime
  | _ => True

/-- Each of the values is as the discipline asks. -/
def Value.AllUnder (D : Discipline) (values : List Value) : Prop := ∀ v ∈ values, v.Under D

/-- The value, if there is one, is as the discipline asks. -/
def Value.OptionUnder (D : Discipline) (value : Option Value) : Prop := ∀ v ∈ value, v.Under D

/-- What a sequence maps or filters with is as the discipline asks. -/
def Transformer.Under (D : Discipline) : Transformer → Prop
  | .map f | .filter f => f.Under D

/-- The functions and values that a generator keeps are as the discipline asks, and it reports where
it may. A generator made by `iterate` that is asked for order has a value to go on from. -/
def Generator.Under (D : Discipline) : Generator → Prop
  | .index f _ _ cached position => f.Under D ∧ Value.OptionUnder D cached ∧ D.place position
  | .iterate f upcoming previous position =>
    f.Under D ∧ Value.OptionUnder D upcoming ∧ Value.OptionUnder D previous ∧ D.place position ∧
      (D.orderly → upcoming ≠ none ∨ previous ≠ none)
  | .range _ _ _ position | .vector _ _ position => D.place position
  | .zip .. | .take .. => True

/-- What a sequence keeps besides its source: its functions, the value it looked ahead to, and its
position. -/
structure Sequence.Under (D : Discipline) (q : Sequence) : Prop where
  transformers : ∀ t ∈ q.transformers, t.Under D
  pending : ∀ found ∈ q.pending, found.2.Under D
  position : D.place q.position

/-- Everything that the store keeps is as the discipline asks. -/
structure Store.Under (D : Discipline) (s : Store) : Prop where
  scopes : ∀ scope ∈ s.scopes, ∀ binding ∈ scope.bindings, binding.2.Under D
  vectors : ∀ items ∈ s.vectors, ∀ v ∈ items, v.Under D
  sources : ∀ source ∈ s.sources, source.generator.Under D
  sequences : ∀ q ∈ s.sequences, q.Under D

/-- A program ends by a fault at a place that the discipline has, or in one of the ways it allows.
Running out of fuel is always allowed. -/
def Interruption.Under (D : Discipline) : Interruption → Prop
  | .fault error => D.place error.position
  | .exit _ => D.exits
  | .outOfFuel => True
  | .misapplied => D.misapplies

/-! ## Disciplines that ask nothing -/

/-- Programs may hold anything and report anywhere. -/
structure Discipline.Lenient (D : Discipline) : Prop where
  place : ∀ p, D.place p
  disorderly : ¬ D.orderly

section Lenient

variable (hD : D.Lenient)

include hD

/-- Under a lenient discipline there is nothing to ask of a value. -/
theorem Value.under_of_lenient (v : Value) : v.Under D := by
  cases v with
  | function closure =>
    exact ⟨Expr.placed_of_forall hD.place closure.body, fun h => absurd h hD.disorderly⟩
  | error kind => exact fun h => absurd h hD.disorderly
  | _ => trivial

/-- Nor of several values. -/
theorem Value.allUnder_of_lenient (vs : List Value) : Value.AllUnder D vs :=
  fun v _ => v.under_of_lenient hD

/-- Nor of a value that may be missing. -/
theorem Value.optionUnder_of_lenient (v : Option Value) : Value.OptionUnder D v :=
  fun w _ => w.under_of_lenient hD

/-- Under a lenient discipline every generator will do. -/
theorem Generator.under_of_lenient (g : Generator) : g.Under D := by
  cases g with
  | index f place limit cached position =>
    exact ⟨f.under_of_lenient hD, Value.optionUnder_of_lenient hD cached, hD.place position⟩
  | iterate f upcoming previous position =>
    exact ⟨f.under_of_lenient hD, Value.optionUnder_of_lenient hD upcoming,
      Value.optionUnder_of_lenient hD previous, hD.place position,
      fun h => absurd h hD.disorderly⟩
  | range current stop step position => exact hD.place position
  | vector items place position => exact hD.place position
  | _ => trivial

/-- Under a lenient discipline every sequence will do. -/
theorem Sequence.under_of_lenient (q : Sequence) : q.Under D where
  transformers t _ := by cases t <;> exact Value.under_of_lenient hD _
  pending found _ := found.2.under_of_lenient hD
  position := hD.place q.position

/-- Under a lenient discipline every store will do: programs may start from any. -/
theorem Store.under_of_lenient (s : Store) : s.Under D where
  scopes _ _ binding _ := binding.2.under_of_lenient hD
  vectors _ _ v _ := v.under_of_lenient hD
  sources source _ := source.generator.under_of_lenient hD
  sequences q _ := q.under_of_lenient hD

end Lenient

namespace Value

theorem allUnder_nil : AllUnder D [] := fun _ h => nomatch h

/-- A list is as asked when its first value and the others are. -/
theorem allUnder_cons {v : Value} {vs : List Value} :
    AllUnder D (v :: vs) ↔ v.Under D ∧ AllUnder D vs :=
  List.forall_mem_cons

theorem allUnder_singleton {v : Value} (h : v.Under D) : AllUnder D [v] :=
  allUnder_cons.mpr ⟨h, allUnder_nil⟩

theorem allUnder_pair {v w : Value} (hv : v.Under D) (hw : w.Under D) : AllUnder D [v, w] :=
  allUnder_cons.mpr ⟨hv, allUnder_singleton hw⟩

theorem optionUnder_none : OptionUnder D none := fun _ h => nomatch h

/-- A value that is there is asked about as it is. -/
theorem optionUnder_some {v : Value} : OptionUnder D (some v) ↔ v.Under D := by simp [OptionUnder]

end Value

/-! ## Reading parts -/

namespace Store.Under

variable {s : Store} (h : s.Under D)

include h

/-- An element of a vector is as the discipline asks, wherever the vector was made. -/
theorem elements {id : VectorId} {v : Value} (hv : v ∈ s.vector id) : v.Under D := by
  rcases kept_or_absent s.vectors id.index #[] with hkept | habsent
  · exact h.vectors _ hkept v hv
  · rw [vector, habsent] at hv
    simp at hv

/-- The generator of a source is as the discipline asks. A source that the store does not have
counts as an empty range at the start of a text. -/
theorem generator (id : SourceId) : (s.source id).generator.Under D := by
  rcases kept_or_absent s.sources id.index _ with hkept | habsent
  · exact h.sources _ hkept
  · rw [source, habsent]
    exact D.start

/-- A sequence is as the discipline asks; one that the store does not have stands at the start of a
text. -/
theorem sequence (id : SequenceId) : (s.sequence id).Under D := by
  rcases kept_or_absent s.sequences id.index _ with hkept | habsent
  · exact h.sequences _ hkept
  · rw [Store.sequence, habsent]
    refine ⟨fun _ ht => absurd ht List.not_mem_nil, ?_, D.start⟩
    rintro _ ⟨⟩

/-- What a name stands for in a scope is as the discipline asks. -/
theorem binding {id : ScopeId} {name : String} {v : Value}
    (hv : (s.scope id).get? name = some v) : v.Under D := by
  obtain ⟨scope, hscope, hmem⟩ := exists_of_get? hv
  exact h.scopes scope hscope _ hmem

/-! ## Changing parts -/

/-- A new scope binds nothing, so opening one keeps the store as it should be. -/
theorem enclose (id : ScopeId) : (s.enclose id).2.Under D :=
  { h with
    scopes := fun scope hscope => by
      rcases Array.mem_push.mp hscope with hold | rfl
      · exact h.scopes scope hold
      · exact fun _ hbinding => nomatch hbinding }

/-- Binding a value that may be kept keeps the store as it should be. -/
theorem bindName {id : ScopeId} {name : String} {v : Value} (hv : v.Under D) :
    (s.bindName id name v).Under D :=
  { h with
    scopes := fun scope hscope => by
      simp only [Store.bindName, modifyScope] at hscope
      rcases of_mem_modify hscope with hold | ⟨old, hold, rfl⟩
      · exact h.scopes scope hold
      · intro binding hbinding
        rcases Scope.of_mem_put hbinding with hb | hb
        · exact h.scopes old hold binding hb
        · exact hb ▸ hv }

/-- A new vector of values that may be kept may be kept. -/
theorem addVector {items : Array Value} (hitems : ∀ v ∈ items, v.Under D) :
    (s.addVector items).2.Under D :=
  { h with
    vectors := fun xs hxs => by
      rcases Array.mem_push.mp hxs with hold | rfl
      · exact h.vectors xs hold
      · exact hitems }

/-- An element may be replaced by a value that may be kept. -/
theorem setElement {id : VectorId} {index : Nat} {v : Value} (hv : v.Under D) :
    (s.setElement id index v).Under D :=
  { h with
    vectors := fun xs hxs => by
      simp only [Store.setElement] at hxs
      rcases of_mem_modify hxs with hold | ⟨old, hold, rfl⟩
      · exact h.vectors xs hold
      · intro w hw
        rcases Array.mem_or_eq_of_mem_setIfInBounds hw with hw | rfl
        · exact h.vectors old hold w hw
        · exact hv }

/-- A new source is one more generator to ask about. -/
theorem addSource {g : Generator} (hg : g.Under D) : (s.addSource g).2.Under D :=
  { h with
    sources := fun source hsource => by
      rcases Array.mem_push.mp hsource with hold | rfl
      · exact h.sources source hold
      · exact hg }

/-- A source may change in any way that keeps its generator as it should be. -/
theorem modifySource {id : SourceId} {f : Source → Source}
    (hf : ∀ {source}, source.generator.Under D → (f source).generator.Under D) :
    (s.modifySource id f).Under D :=
  { h with
    sources := fun source hsource => by
      rcases of_mem_modify hsource with hold | ⟨old, hold, rfl⟩
      · exact h.sources source hold
      · exact hf (h.sources old hold) }

/-- A new sequence is one more to ask about. -/
theorem addSequence {q : Sequence} (hq : q.Under D) : (s.addSequence q).2.Under D :=
  { h with
    sequences := fun r hr => by
      rcases Array.mem_push.mp hr with hold | rfl
      · exact h.sequences r hold
      · exact hq }

/-- A sequence may look ahead to a value that may be kept. -/
theorem setPending {id : SequenceId} {pending : Option (Nat × Value)}
    (hpending : ∀ found ∈ pending, found.2.Under D) : (s.setPending id pending).Under D :=
  { h with
    sequences := fun r hr => by
      simp only [Store.setPending] at hr
      rcases of_mem_modify hr with hold | ⟨old, hold, rfl⟩
      · exact h.sequences r hold
      · exact { h.sequences old hold with pending := hpending } }

/-- Counting a function made changes nothing that a discipline asks about. -/
theorem countFunction : Store.Under D { s with closures := s.closures + 1 } := { h with }

/-- Nor does printing a line. -/
theorem printLine (line : String) : (s.printLine line).Under D := { h with }

end Store.Under

/-! ## Actions -/

namespace Action

/-- The outcome is as a discipline asks. -/
inductive Kept {α : Type} (D : Discipline) (good : α → Prop) :
    EStateM.Result Interruption Store α → Prop
  | value {a : α} {s : Store} : s.Under D → good a → Kept D good (.ok a s)
  | interruption {e : Interruption} {s : Store} : s.Under D → e.Under D → Kept D good (.error e s)

/-- From a store that is as the discipline asks, the action leaves one and ends in a good value or in
an interruption that is allowed. -/
def Obeys {α : Type} (D : Discipline) (x : Action α) (good : α → Prop) : Prop :=
  ∀ s : Store, s.Under D → Kept D good (x s)

/-- Nothing is asked of a value. -/
def Whatever {α : Type} (_ : α) : Prop := True

namespace Obeys

variable {α β : Type} {P P' : α → Prop} {Q : β → Prop} {position : Position}

/-- **An action made of actions that obey obeys.** -/
theorem bind {x : Action α} {f : α → Action β} (h : Obeys D x P)
    (hf : ∀ {a}, P a → Obeys D (f a) Q) : Obeys D (x >>= f) Q := by
  intro s hs
  have hx := h s hs
  cases hresult : x s with
  | ok a s' =>
    rw [hresult] at hx
    rw [bind_ok hresult]
    cases hx with
    | value hs' ha => exact hf ha s' hs'
  | error e s' =>
    rw [hresult] at hx
    rw [bind_error hresult]
    cases hx with
    | interruption hs' he => exact .interruption hs' he

/-- What an action leaves true may be said more weakly. -/
theorem imp {x : Action α} (h : Obeys D x P) (himp : ∀ {a}, P a → P' a) : Obeys D x P' := by
  intro s hs
  have hx := h s hs
  cases hresult : x s with
  | ok a s' =>
    rw [hresult] at hx
    cases hx with
    | value hs' ha => exact .value hs' (himp ha)
  | error e s' =>
    rw [hresult] at hx
    cases hx with
    | interruption hs' he => exact .interruption hs' he

/-- What is known of every value in which the action ends. -/
theorem of_ok {x : Action α} (h : Obeys D x P)
    (hok : ∀ {s : Store} {a : α} {s' : Store}, x s = .ok a s' → P' a) : Obeys D x P' := by
  intro s hs
  have hx := h s hs
  cases hresult : x s with
  | ok a s' =>
    rw [hresult] at hx
    cases hx with
    | value hs' _ => exact .value hs' (hok hresult)
  | error e s' =>
    rw [hresult] at hx
    cases hx with
    | interruption hs' he => exact .interruption hs' he

/-- To give a value is to give one of which `P` is true. -/
theorem pure {a : α} (h : P a) : Obeys D (Pure.pure a) P := fun _ hs => .value hs h

/-- To end as the discipline allows. -/
theorem throw {e : Interruption} (h : e.Under D) : Obeys D (MonadExcept.throw e) P :=
  fun _ hs => .interruption hs h

/-- To fail at a place that the discipline has. -/
theorem fail {fault : Fault} (h : D.place position) : Obeys D (Action.fail fault position) P :=
  fun _ hs => .interruption hs h

/-- To read the store: what is read comes from a store that is as the discipline asks. -/
theorem view {f : Store → α} (h : ∀ {s}, s.Under D → P (f s)) : Obeys D (Action.view f) P :=
  fun _ hs => .value hs (h hs)

/-- To add something to the store that may be there. -/
theorem create {f : Store → α × Store} (h : ∀ {s}, s.Under D → (f s).2.Under D ∧ P (f s).1) :
    Obeys D (Action.create f) P :=
  fun _ hs => .value (h hs).1 (h hs).2

/-- To change the store into one that is as the discipline asks. -/
theorem modify {f : Store → Store} (h : ∀ {s}, s.Under D → (f s).Under D) :
    Obeys D (modify f : Action PUnit) Whatever :=
  fun _ hs => .value (h hs) trivial

/-- To look a name up, and to report at a place of the discipline where there is none. -/
theorem ofName {find : Store → Except NameFault α} (hposition : D.place position)
    (h : ∀ {s a}, s.Under D → find s = .ok a → P a) : Obeys D (Action.ofName find position) P := by
  intro s hs
  unfold Action.ofName
  cases hfind : find s with
  | ok a => exact .value hs (h hs hfind)
  | error e => exact .interruption hs hposition

/-- To compute with numbers: nothing that a discipline asks about comes of it. -/
theorem ofNumeric {answer : Except Number.Failure α} (h : D.place position) :
    Obeys D (Action.ofNumeric answer position) Whatever := by
  cases answer with
  | ok value => exact pure trivial
  | error failure => exact fail h

/-- To make a vector of values that may be kept. -/
theorem newVector {items : List Value} (h : Value.AllUnder D items) :
    Obeys D (Action.newVector items) (Value.Under D) :=
  bind (P := Whatever)
    (create fun hs => ⟨hs.addVector fun v hv => h v (by simpa using hv), trivial⟩)
    fun _ => pure trivial

/-- To read a vector's elements. -/
theorem items {id : VectorId} : Obeys D (Action.items id) (Value.AllUnder D) :=
  view fun hs _ hv => hs.elements (Array.mem_toList_iff.mp hv)

/-- What comes after a fault never runs. -/
theorem fail_bind {fault : Fault} {rest : β → Action α} (h : D.place position) :
    Obeys D (Action.fail fault position >>= rest) P :=
  fun _ hs => .interruption hs h

/-- Going on only if a condition does not hold. -/
theorem guarded {c : Prop} [Decidable c] {fault : Fault} {rest : PUnit → Action α}
    (hposition : D.place position) (h : ¬ c → Obeys D (rest ⟨⟩) P) :
    Obeys D (if c then (do let r ← Action.fail fault position; rest r) else rest ⟨⟩) P := by
  split
  · exact fail_bind hposition
  · next hc => exact h hc

/-- Going on after a fault obeys if the handler does. -/
theorem recover {x : Action α} {handler : Fault → Action α} (h : Obeys D x P)
    (hhandler : ∀ fault, Obeys D (handler fault) P) : Obeys D (Action.recover x handler) P := by
  intro s hs
  have hx := h s hs
  unfold Action.recover
  cases hresult : x s with
  | ok a s' =>
    rw [hresult] at hx
    exact hx
  | error e s' =>
    rw [hresult] at hx
    cases hx with
    | interruption hs' he =>
      cases e with
      | fault error => exact hhandler error.fault s' hs'
      | _ => exact .interruption hs' he

/-- An action for each of a list of things, one after the other. -/
theorem mapM {f : β → Action Value} {xs : List β} (h : ∀ x ∈ xs, Obeys D (f x) (Value.Under D)) :
    Obeys D (xs.mapM f) (Value.AllUnder D) := by
  induction xs with
  | nil => exact pure Value.allUnder_nil
  | cons x rest ih =>
    rw [List.mapM_cons]
    refine (h x List.mem_cons_self).bind fun hv => ?_
    refine (ih fun y hy => h y (List.mem_cons_of_mem x hy)).bind fun hvs => ?_
    exact pure (Value.allUnder_cons.mpr ⟨hv, hvs⟩)

/-- A vector of what an action gives for each of a list of things. -/
theorem newVectorOf {f : β → Action Value} {xs : List β}
    (h : ∀ x ∈ xs, Obeys D (f x) (Value.Under D)) :
    Obeys D (do Action.newVector (← xs.mapM f)) (Value.Under D) :=
  (mapM h).bind newVector

/-- A state that goes through a list of things. -/
theorem foldlM {f : α → β → Action α} {xs : List β} {a : α} (init : P a)
    (h : ∀ x ∈ xs, ∀ {a}, P a → Obeys D (f a x) P) : Obeys D (xs.foldlM f a) P := by
  induction xs generalizing a with
  | nil => exact pure init
  | cons x rest ih =>
    rw [List.foldlM_cons]
    refine (h x List.mem_cons_self init).bind fun ha => ?_
    exact ih ha fun y hy => h y (List.mem_cons_of_mem x hy)

end Obeys

/-! ## Operators -/

section Operators

variable {position : Position} (hposition : D.place position)

include hposition

/-- An operator of two values, to any depth of nested vectors, reports at its own position and gives
numbers, texts or vectors of them. -/
theorem binaryTo_obeys (depth : Nat) (op : BinaryOp) (left right : Value) :
    Obeys D (binaryTo position depth op left right) (Value.Under D) := by
  induction depth using Nat.strongRecOn generalizing op left right with
  | ind depth ih =>
    unfold binaryTo
    split
    case h_1 | h_2 =>
      exact (Obeys.view (P := Whatever) fun _ => trivial).bind fun _ => Obeys.pure trivial
    case h_3 =>
      split
      · next value hvalue =>
        obtain ⟨n, rfl⟩ | ⟨b, rfl⟩ := onNumbers_cases hvalue <;> exact Obeys.pure trivial
      · exact Obeys.fail hposition
    case h_4 =>
      split
      · exact Obeys.throw trivial
      · split
        case h_1 | h_2 =>
          refine Obeys.items.bind fun _ => Obeys.items.bind fun _ => Obeys.guarded hposition fun _ => ?_
          exact Obeys.newVectorOf fun _ _ => ih _ (Nat.lt_succ_self _) _ _ _
        case h_3 =>
          refine Obeys.items.bind fun _ => Obeys.items.bind fun _ => Obeys.guarded hposition fun _ => ?_
          refine Obeys.foldlM trivial fun _ _ _ _ => ?_
          exact (ih _ (Nat.lt_succ_self _) _ _ _).bind fun _ => ih _ (Nat.lt_succ_self _) _ _ _
        case h_4 => exact Obeys.fail hposition
    case h_5 | h_6 | h_7 =>
      split
      · exact Obeys.throw trivial
      · exact Obeys.items.bind fun _ =>
          Obeys.newVectorOf fun _ _ => ih _ (Nat.lt_succ_self _) _ _ _
    case h_8 => exact Obeys.fail hposition

/-- An operator of two values reports at its own position. -/
theorem binary_obeys (op : BinaryOp) (left right : Value) :
    Obeys D (binary op left right position) (Value.Under D) :=
  (Obeys.view (P := Whatever) fun _ => trivial).bind fun _ => binaryTo_obeys hposition _ op left right

/-- A negation, to any depth of nested vectors, reports at its own position. -/
theorem negateTo_obeys (depth : Nat) (operand : Value) :
    Obeys D (negateTo position depth operand) (Value.Under D) := by
  induction depth generalizing operand with
  | zero =>
    cases operand with
    | number n => exact Obeys.pure trivial
    | vector v => exact Obeys.throw trivial
    | _ => exact Obeys.fail hposition
  | succ depth ih =>
    cases operand with
    | number n => exact Obeys.pure trivial
    | vector v => exact Obeys.items.bind fun _ => Obeys.newVectorOf fun x _ => ih x
    | _ => exact Obeys.fail hposition

/-- An operator of one value reports at its own position. -/
theorem unary_obeys (op : UnaryOp) (operand : Value) :
    Obeys D (unary op operand position) (Value.Under D) := by
  unfold unary
  split
  · exact (Obeys.view (P := Whatever) fun _ => trivial).bind fun _ => negateTo_obeys hposition _ _
  · exact Obeys.pure trivial
  · exact Obeys.fail hposition

end Operators

end Action

end Abacus
