import Abacus.Proofs.Run.Action
import Abacus.Proofs.Run.Probed

/-!
# Actions that are blind to sequences

Most of what programs do has nothing to do with sequences: it looks at vectors and scopes, and it leaves
sequences and sources alone. So it does the same in two stores that differ in their sequences, and
differs afterwards in these alone. It does not end a program by an exit either: what a probe makes of
such an action can be told without looking at it.

**The law** (`Action.Blind.bind`): what is made of blind actions is blind. So are the operators, all
that has to do with scopes, and the checks of arguments.
-/

namespace Abacus

/-! ## Vectors and sequences -/

namespace Store

variable (s : Store) (sequences : Array Sequence)

/-- The text of a value has nothing to do with what sequences there are. -/
theorem textTo_sequences (depth : Nat) (v : Value) :
    textTo { s with sequences } depth v = s.textTo depth v := by
  induction depth generalizing v with
  | zero => cases v <;> rfl
  | succ depth ih =>
    cases v with
    | vector id =>
      rw [textTo, textTo, show textTo { s with sequences } depth = s.textTo depth from funext ih]
      rfl
    | _ => rfl

theorem text_sequences (v : Value) : text { s with sequences } v = s.text v :=
  textTo_sequences s sequences s.depth v

theorem equalTo_sequences (numbers : Number → Number → Bool) (depth : Nat) (v w : Value) :
    equalTo { s with sequences } numbers depth v w = s.equalTo numbers depth v w := by
  induction depth generalizing v w with
  | zero => cases v <;> cases w <;> rfl
  | succ depth ih =>
    cases v with
    | vector a =>
      cases w with
      | vector b =>
        rw [equalTo, equalTo,
          show equalTo { s with sequences } numbers depth = s.equalTo numbers depth from
            funext fun v => funext (ih v)]
        rfl
      | _ => rfl
    | _ => cases w <;> rfl

theorem reachesTo_sequences (target : VectorId) (depth : Nat) (v : Value) :
    reachesTo { s with sequences } target depth v = s.reachesTo target depth v := by
  induction depth generalizing v with
  | zero => cases v <;> rfl
  | succ depth ih =>
    cases v with
    | vector id =>
      rw [reachesTo, reachesTo,
        show reachesTo { s with sequences } target depth = s.reachesTo target depth from funext ih]
      rfl
    | _ => rfl

theorem ascii?_sequences (id : VectorId) : ascii? { s with sequences } id = s.ascii? id := by
  unfold ascii?
  rw [show text { s with sequences } = s.text from funext (text_sequences s sequences)]
  rfl

end Store

namespace Action

/-- The action is the same whatever is in the sequences, and it changes neither them nor the sources.
It does not end in an exit. -/
def Blind {α : Type} (x : Action α) : Prop :=
  ∀ (s : Store) (sequences : Array Sequence),
    (∃ a s', x s = .ok a s' ∧ s'.sources = s.sources ∧ s'.sequences = s.sequences ∧
      x { s with sequences } = .ok a { s' with sequences }) ∨
    ∃ e s', x s = .error e s' ∧ (∀ code, e ≠ .exit code) ∧ s'.sources = s.sources ∧
      s'.sequences = s.sequences ∧ x { s with sequences } = .error e { s' with sequences }

namespace Blind

variable {α β : Type}

/-- **What is made of blind actions is blind.** -/
theorem bind {x : Action α} {f : α → Action β} (h : Blind x) (hf : ∀ a, Blind (f a)) :
    Blind (x >>= f) := by
  intro s sequences
  rcases h s sequences with ⟨a, s', hs, hsources, hsequences, ht⟩ |
    ⟨e, s', hs, he, hsources, hsequences, ht⟩
  · rw [bind_ok hs, bind_ok ht, ← hsources, ← hsequences]
    exact hf a s' sequences
  · rw [bind_error hs, bind_error ht]
    exact .inr ⟨e, s', rfl, he, hsources, hsequences, rfl⟩

theorem pure (a : α) : Blind (Pure.pure a) := fun s _ => .inl ⟨a, s, rfl, rfl, rfl, rfl⟩

/-- An interruption changes nothing. It has to be another one than an exit. -/
theorem throw {e : Interruption} (he : ∀ code, e ≠ .exit code) :
    Blind (MonadExcept.throw e : Action α) := fun s _ => .inr ⟨e, s, rfl, he, rfl, rfl, rfl⟩

theorem fail (fault : Fault) (position : Position) : Blind (Action.fail fault position : Action α) :=
  throw nofun

/-- What comes after a fault never runs. -/
theorem fail_bind {fault : Fault} {position : Position} {rest : β → Action α} :
    Blind (Action.fail fault position >>= rest) := fail fault position

/-- Going on only if a condition does not hold. -/
theorem guarded {c : Prop} [Decidable c] {fault : Fault} {position : Position}
    {rest : PUnit → Action α} (h : Blind (rest ⟨⟩)) :
    Blind (if c then (do let r ← Action.fail fault position; rest r) else rest ⟨⟩) := by
  split
  · exact fail_bind
  · exact h

theorem mapM {f : β → Action α} (h : ∀ x, Blind (f x)) (xs : List β) : Blind (xs.mapM f) := by
  induction xs with
  | nil => exact pure []
  | cons x rest ih =>
    rw [List.mapM_cons]
    exact (h x).bind fun _ => ih.bind fun _ => pure _

/-- Blind actions on the elements of a list, each of which goes on from what the one before gave. -/
theorem foldlM {f : α → β → Action α} (h : ∀ a x, Blind (f a x)) (xs : List β) (a : α) :
    Blind (xs.foldlM f a) := by
  induction xs generalizing a with
  | nil => exact pure a
  | cons x rest ih =>
    rw [List.foldlM_cons]
    exact (h a x).bind ih

/-- A look at what is the same whatever is in the sequences. -/
theorem view {f : Store → α} (h : ∀ s (sequences : Array Sequence), f { s with sequences } = f s) :
    Blind (Action.view f) := by
  intro s sequences
  refine .inl ⟨f s, s, rfl, rfl, rfl, ?_⟩
  rw [← h s sequences]
  rfl

/-- A new part of the store that is no source and no sequence. -/
theorem create {f : Store → α × Store} (h : ∀ s (sequences : Array Sequence),
    (f s).2.sources = s.sources ∧ (f s).2.sequences = s.sequences ∧
      f { s with sequences } = ((f s).1, { (f s).2 with sequences })) : Blind (Action.create f) := by
  intro s sequences
  obtain ⟨hsources, hsequences, hsame⟩ := h s sequences
  refine .inl ⟨(f s).1, (f s).2, rfl, hsources, hsequences, ?_⟩
  rw [Action.create, hsame]

/-- A change that leaves sources and sequences alone. -/
theorem modify {f : Store → Store} (hsources : ∀ s, (f s).sources = s.sources)
    (hsequences : ∀ s, (f s).sequences = s.sequences)
    (h : ∀ s (sequences : Array Sequence), f { s with sequences } = { f s with sequences }) :
    Blind (modify f : Action PUnit) := by
  intro s sequences
  refine .inl ⟨⟨⟩, f s, rfl, hsources s, hsequences s, ?_⟩
  rw [← h s sequences]
  rfl

theorem ofName {find : Store → Except NameFault α} {position : Position}
    (h : ∀ s (sequences : Array Sequence), find { s with sequences } = find s) :
    Blind (Action.ofName find position) := by
  intro s sequences
  unfold Action.ofName
  rw [h s sequences]
  cases find s with
  | ok a => exact .inl ⟨a, s, rfl, rfl, rfl, rfl⟩
  | error e => exact .inr ⟨_, s, rfl, nofun, rfl, rfl, rfl⟩

theorem ofNumeric (answer : Except Number.Failure α) (position : Position) :
    Blind (Action.ofNumeric answer position) := by
  cases answer with
  | ok value => exact pure value
  | error failure => exact fail _ _

/-! ## Vectors -/

theorem items (id : VectorId) : Blind (Action.items id) := view fun _ _ => rfl

theorem newVector (items : List Value) : Blind (Action.newVector items) :=
  (create fun _ _ => ⟨rfl, rfl, rfl⟩).bind fun _ => pure _

theorem newVectorOf {f : β → Action Value} (h : ∀ x, Blind (f x)) (xs : List β) :
    Blind (do Action.newVector (← xs.mapM f)) :=
  (mapM h xs).bind fun _ => newVector _

theorem equal (v w : Value) : Blind (Action.view (·.equal v w)) :=
  view fun s sequences => s.equalTo_sequences sequences _ _ v w

theorem text (v : Value) : Blind (Action.view (·.text v)) :=
  view fun s sequences => s.text_sequences sequences v

/-! ## Operators -/

/-- Operators go down into vectors and look at nothing else. -/
theorem binaryTo (position : Position) (depth : Nat) (op : BinaryOp) (left right : Value) :
    Blind (Action.binaryTo position depth op left right) := by
  induction depth using Nat.strongRecOn generalizing op left right with
  | ind depth ih =>
    unfold Action.binaryTo
    split
    case h_1 | h_2 => exact (equal left right).bind fun _ => pure _
    case h_3 =>
      split
      · exact pure _
      · exact fail _ _
    case h_4 =>
      split
      · exact throw nofun
      · split
        case h_1 | h_2 =>
          refine (items _).bind fun _ => (items _).bind fun _ => guarded ?_
          exact newVectorOf (fun _ => ih _ (Nat.lt_succ_self _) _ _ _) _
        case h_3 =>
          refine (items _).bind fun _ => (items _).bind fun _ => guarded ?_
          refine foldlM (fun _ _ => ?_) _ _
          exact (ih _ (Nat.lt_succ_self _) _ _ _).bind fun _ => ih _ (Nat.lt_succ_self _) _ _ _
        case h_4 => exact fail _ _
    case h_5 | h_6 | h_7 =>
      split
      · exact throw nofun
      · exact (items _).bind fun _ => newVectorOf (fun _ => ih _ (Nat.lt_succ_self _) _ _ _) _
    case h_8 => exact fail _ _

theorem binary (op : BinaryOp) (left right : Value) (position : Position) :
    Blind (Action.binary op left right position) :=
  (view fun _ _ => rfl).bind fun _ => binaryTo position _ op left right

theorem negateTo (position : Position) (depth : Nat) (operand : Value) :
    Blind (Action.negateTo position depth operand) := by
  induction depth generalizing operand with
  | zero =>
    cases operand with
    | number n => exact pure _
    | vector v => exact throw nofun
    | _ => exact fail _ _
  | succ depth ih =>
    cases operand with
    | number n => exact pure _
    | vector v => exact (items v).bind fun _ => newVectorOf ih _
    | _ => exact fail _ _

theorem unary (op : UnaryOp) (operand : Value) (position : Position) :
    Blind (Action.unary op operand position) := by
  unfold Action.unary
  split
  · exact (view fun _ _ => rfl).bind fun _ => negateTo position _ operand
  · exact pure _
  · exact fail _ _

/-! ## Scopes -/

/-- A new scope is no source and no sequence. -/
theorem enclose (scope : ScopeId) : Blind (Action.enclose scope) :=
  create fun _ _ => ⟨rfl, rfl, rfl⟩

theorem lookup (scope : ScopeId) (name : String) (position : Position) :
    Blind (Action.lookup scope name position) := ofName fun _ _ => rfl

theorem checkAssignable (scope : ScopeId) (name : String) (position : Position) :
    Blind (Action.checkAssignable scope name position) := ofName fun _ _ => rfl

/-- Binding a name in a place that is found among the scopes. -/
theorem bindName {find : Store → Except NameFault ScopeId} (name : String) (value : Value)
    (position : Position) (h : ∀ s (sequences : Array Sequence), find { s with sequences } = find s) :
    Blind (Action.bindName find name value position) :=
  (ofName h).bind fun _ => modify (fun _ => rfl) (fun _ => rfl) fun _ _ => rfl

theorem bindAll (scope : ScopeId) (position : Position) (names : List String) (values : List Value) :
    Blind (Action.bindAll scope position names values) := by
  induction names generalizing values with
  | nil =>
    unfold Action.bindAll
    exact pure _
  | cons name names ih =>
    cases values with
    | nil => exact pure _
    | cons value values => exact (bindName name value position fun _ _ => rfl).bind fun _ => ih values

theorem expectBoolean (op : BinaryOp) (position : Position) (value : Value) :
    Blind (Action.expectBoolean op position value) := by
  cases value with
  | boolean b => exact pure b
  | _ => exact fail _ _

theorem expectCondition (position : Position) (value : Value) :
    Blind (Action.expectCondition position value) := by
  cases value with
  | boolean b => exact pure b
  | _ => exact fail _ _

/-! ## Arguments -/

section Arguments

variable {owner : String} {position : Position}

theorem refuse {wanted : Wanted} {found : Value} :
    Blind (Native.refuse owner wanted found position : Action α) := fail _ _

theorem expectNumber (value : Value) :
    Blind (Native.expectNumber owner position value) := by
  cases value with
  | number n => exact pure n
  | _ => exact refuse

theorem expectCount (value : Value) :
    Blind (Native.expectCount owner position value) := by
  unfold Native.expectCount
  split
  · split
    · exact fail _ _
    · exact pure _
  · exact refuse

/-- To tell whether a value can be called one looks at that value only. -/
theorem expectCallable (value : Value) :
    Blind (Native.expectCallable owner position value) := by
  unfold Native.expectCallable
  split
  · exact pure _
  · exact refuse

theorem expectVector (value : Value) :
    Blind (Native.expectVector owner position value) := by
  cases value with
  | vector id => exact pure id
  | _ => exact refuse

theorem expectIndex (id : VectorId) (value : Value) :
    Blind (Native.expectIndex owner position id value) := by
  refine (expectCount value).bind fun _ => (view fun _ _ => rfl).bind fun _ => ?_
  dsimp only
  split
  · exact pure _
  · exact fail _ _

theorem expectThunk (value : Value) :
    Blind (Native.expectThunk owner position value) := by
  unfold Native.expectThunk
  split
  · split
    · exact pure _
    · exact fail _ _
  · split
    · exact pure _
    · exact fail _ _
  · exact refuse

/-! ## Numbers, types and vectors -/

theorem extremum (direction : Ordering) (best : Number) (rest : List Value) :
    Blind (Native.extremum owner direction position best rest) := by
  induction rest generalizing best with
  | nil => exact pure best
  | cons value rest ih => exact (expectNumber value).bind fun _ => (ofNumeric _ _).bind fun _ => ih _

theorem logarithm (x : Value) (base : Option Value) :
    Blind (Native.logarithm position x base) := by
  refine (expectNumber x).bind fun _ => ?_
  cases base with
  | none => exact pure _
  | some base => exact (expectNumber base).bind fun _ => (ofNumeric _ _).bind fun _ => pure _

theorem convert (tag : TypeTag) (arguments : List Value) :
    Blind (Native.convert tag arguments position) := by
  unfold Native.convert
  split
  case h_1 | h_2 => exact (expectNumber _).bind fun _ => (ofNumeric _ _).bind fun _ => pure _
  case h_3 => exact (expectNumber _).bind fun _ => pure _
  case h_4 =>
    refine (expectNumber _).bind fun _ => (ofNumeric _ _).bind fun _ => ?_
    exact (expectNumber _).bind fun _ => (ofNumeric _ _).bind fun _ => pure _
  all_goals exact fail _ _

theorem element (x index : Value) :
    Blind (Native.run Probed.idle position .get [x, index]) := by
  refine (expectVector x).bind fun id => (expectIndex id index).bind fun i => ?_
  refine (view fun _ _ => rfl).bind fun xs => ?_
  cases xs[i]? with
  | some value => exact pure value
  | none => exact fail _ _

theorem print (first : Value) (rest : List Value) :
    Blind (Native.run Probed.idle position .print (first :: rest)) := by
  refine (view fun s sequences => ?_).bind fun line => bind ?_ fun _ => pure _
  · rw [show Store.text { s with sequences } = s.text from funext (s.text_sequences sequences)]
  · exact modify (fun _ => rfl) (fun _ => rfl) fun _ _ => rfl

/-- A vector changes, and no sequence does. -/
theorem setElement (vector index value : Value) :
    Blind (Native.setElement position vector index value) := by
  refine (expectVector vector).bind fun id => (expectIndex id index).bind fun i => ?_
  refine (view fun s sequences => s.reachesTo_sequences sequences id _ value).bind fun _ => guarded ?_
  refine bind ?_ fun _ => pure vector
  exact modify (fun _ => rfl) (fun _ => rfl) fun _ _ => rfl

theorem asciiText (value : Value) : Blind (Native.asciiText value position) := by
  refine (expectVector value).bind fun id => ?_
  refine (view fun s sequences => s.ascii?_sequences sequences id).bind fun found => ?_
  cases found with
  | ok line => exact pure line
  | error e => exact fail _ _

/-- A call of `exit` ends in an exit with the code that it is given, or it is blind to sequences. -/
theorem exit_cases (position : Position) (arguments : List Value) :
    (∃ code, arguments = [.number (.integer code)] ∧
      Native.run Probed.idle position .exit arguments = MonadExcept.throw (.exit code.toInt)) ∨
      Blind (Native.run Probed.idle position .exit arguments) := by
  rcases arguments with _ | ⟨x, _ | ⟨y, rest⟩⟩
  case nil => exact .inr (throw nofun)
  all_goals cases x
  case cons.nil.number n =>
    cases n with
    | integer code =>
      by_cases hrange : Int32.minValue.toInt ≤ code.toInt ∧ code.toInt ≤ Int32.maxValue.toInt
      · refine .inl ⟨code, rfl, ?_⟩
        unfold Native.run
        dsimp only
        rw [if_pos hrange]
        rfl
      · refine .inr ?_
        unfold Native.run
        dsimp only
        rw [if_neg hrange]
        exact fail _ _
    | _ => exact .inr refuse
  all_goals first | exact .inr refuse | exact .inr (throw nofun)

end Arguments

end Blind

end Action

end Abacus
