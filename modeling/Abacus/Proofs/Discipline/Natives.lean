import Abacus.Proofs.Discipline.Sequences
import Abacus.Run.Natives

/-!
# Built-in functions under a discipline

Built-in functions report at the position of their call, and build sequences there. What they keep
of the program's functions they got as arguments, or found in the store.

**The law** (`Native.run_obeys`): on a machine that obeys a discipline every built-in function obeys
it, with as many arguments as it takes; only `exit` has to be allowed.
-/

namespace Abacus

/-- What a built-in function may use, calls and readings of sequences, obeys the discipline. -/
structure Machine.Obeys (D : Discipline) (machine : Machine) : Prop where
  call : machine.call.Obeys D
  reader : machine.reader.Obeys D

namespace Native

open Abacus.Action (Obeys Whatever)

variable {D : Discipline} {owner : String} {position : Position} (hposition : D.place position)

section Arguments

include hposition

/-! ## Arguments -/

/-- A refused argument is reported at the call. -/
theorem refuse_obeys {α : Type} {good : α → Prop} {wanted : Wanted} {found : Value} :
    Obeys D (refuse owner wanted found position) good :=
  .fail hposition

/-- An argument that has to be a number is taken or refused at the call; so are the others below. -/
theorem expectNumber_obeys (value : Value) :
    Obeys D (expectNumber owner position value) Whatever := by
  cases value with
  | number n => exact .pure trivial
  | _ => exact refuse_obeys hposition

/-- An argument that has to be a count. -/
theorem expectCount_obeys (value : Value) :
    Obeys D (expectCount owner position value) Whatever := by
  unfold expectCount
  split
  · split
    · exact .fail hposition
    · exact .pure trivial
  · exact refuse_obeys hposition

/-- An argument that has to be something to call. -/
theorem expectCallable_obeys (value : Value) :
    Obeys D (expectCallable owner position value) Whatever := by
  unfold expectCallable
  split
  · exact .pure trivial
  · exact refuse_obeys hposition

/-- An argument that has to be a vector. -/
theorem expectVector_obeys (value : Value) :
    Obeys D (expectVector owner position value) Whatever := by
  cases value with
  | vector id => exact .pure trivial
  | _ => exact refuse_obeys hposition

/-- An argument that has to be an index of a vector. -/
theorem expectIndex_obeys (id : VectorId) (value : Value) :
    Obeys D (expectIndex owner position id value) Whatever := by
  refine (expectCount_obeys hposition value).bind fun _ => ?_
  refine (Obeys.view (P := Whatever) fun _ => trivial).bind fun _ => ?_
  dsimp only
  split
  · exact .pure trivial
  · exact .fail hposition

/-- An argument that has to be a sequence. -/
theorem expectSequence_obeys (value : Value) :
    Obeys D (expectSequence owner position value) Whatever := by
  cases value with
  | sequence id => exact .pure trivial
  | _ => exact refuse_obeys hposition

/-- An argument that has to be a function of nothing. -/
theorem expectThunk_obeys (value : Value) :
    Obeys D (expectThunk owner position value) Whatever := by
  unfold expectThunk
  split
  · split
    · exact .pure trivial
    · exact .fail hposition
  · split
    · exact .pure trivial
    · exact .fail hposition
  · exact refuse_obeys hposition

/-! ## Numbers and types -/

/-- The least or greatest of the arguments is looked for among numbers only. -/
theorem extremum_obeys (direction : Ordering) (best : Number) (rest : List Value) :
    Obeys D (extremum owner direction position best rest) Whatever := by
  induction rest generalizing best with
  | nil => exact .pure trivial
  | cons value rest ih =>
    refine (expectNumber_obeys hposition value).bind fun _ => ?_
    exact (Obeys.ofNumeric hposition).bind fun _ => ih _

/-- A logarithm fails at the call or gives a number. -/
theorem logarithm_obeys (x : Value) (base : Option Value) :
    Obeys D (logarithm position x base) (Value.Under D) := by
  refine (expectNumber_obeys hposition x).bind fun _ => ?_
  cases base with
  | none => exact .pure trivial
  | some base =>
    refine (expectNumber_obeys hposition base).bind fun _ => ?_
    exact (Obeys.ofNumeric hposition).bind fun _ => .pure trivial

/-- A conversion fails at the call, or gives a value that holds none of the program's functions. -/
theorem convert_obeys (tag : TypeTag) (arguments : List Value) :
    Obeys D (convert tag arguments position) (Value.Under D) := by
  unfold convert
  split
  case h_1 | h_2 =>
    refine (expectNumber_obeys hposition _).bind fun _ => ?_
    exact (Obeys.ofNumeric hposition).bind fun _ => .pure trivial
  case h_3 => exact (expectNumber_obeys hposition _).bind fun _ => .pure trivial
  case h_4 =>
    refine (expectNumber_obeys hposition _).bind fun _ => ?_
    refine (Obeys.ofNumeric hposition).bind fun _ => ?_
    refine (expectNumber_obeys hposition _).bind fun _ => ?_
    exact (Obeys.ofNumeric hposition).bind fun _ => .pure trivial
  all_goals exact .fail hposition

/-! ## Vectors and ranges -/

/-- What is kept of a vector's elements is as the discipline asks, when the predicate and the
elements are. -/
theorem filterItems_obeys {call : Call} (hcall : call.Obeys D) {predicate : Value}
    {kept xs : List Value} (hpredicate : predicate.Under D) (hkept : Value.AllUnder D kept)
    (hxs : Value.AllUnder D xs) :
    Obeys D (filterItems call predicate position kept xs) (Value.AllUnder D) := by
  induction xs generalizing kept with
  | nil => exact .pure fun v hv => hkept v (List.mem_reverse.mp hv)
  | cons item rest ih =>
    obtain ⟨hitem, hrest⟩ := Value.allUnder_cons.mp hxs
    refine (hcall hpredicate (Value.allUnder_singleton hitem) hposition).bind fun _ => ?_
    split
    · exact ih (Value.allUnder_cons.mpr ⟨hitem, hkept⟩) hrest
    · exact ih hkept hrest
    · exact .fail hposition

/-- To replace an element of a vector by a value that may be kept. -/
theorem setElement_obeys {vector value : Value} (index : Value) (hvector : vector.Under D)
    (hvalue : value.Under D) :
    Obeys D (setElement position vector index value) (Value.Under D) := by
  refine (expectVector_obeys hposition vector).bind fun {id} _ => ?_
  refine (expectIndex_obeys hposition id index).bind fun {i} _ => ?_
  refine (Obeys.view (P := Whatever) fun _ => trivial).bind fun _ => .guarded hposition fun _ => ?_
  exact (Obeys.modify fun hs => hs.setElement hvalue).bind fun _ => .pure hvector

/-- To read a vector of codes as a text. -/
theorem asciiText_obeys (value : Value) : Obeys D (asciiText value position) Whatever := by
  refine (expectVector_obeys hposition value).bind fun _ => ?_
  refine (Obeys.view (P := Whatever) fun _ => trivial).bind fun _ => ?_
  split
  · exact .pure trivial
  · exact .fail hposition

/-- To make a range: its generator keeps bounds, and reports at the call. A count of bounds that the
arity refuses is a misapplication. -/
theorem newRange_obeys {bounds : List Value}
    (haccepts : (arity .range).accepts bounds.length ∨ D.misapplies) :
    Obeys D (newRange position bounds) (Value.Under D) := by
  have hbounds : ∀ xs : List Value,
      Obeys D (xs.mapM (expectBound position)) fun ys => ys.length = xs.length := by
    intro xs
    induction xs with
    | nil => exact .pure rfl
    | cons x rest ih =>
      rw [List.mapM_cons]
      refine Obeys.bind (P := Whatever) ?_ fun _ => ih.bind fun h => .pure (congrArg Nat.succ h)
      refine (expectNumber_obeys hposition x).bind fun _ => ?_
      split
      · exact refuse_obeys hposition
      · exact .pure trivial
  have hmake : ∀ start stop step : Number,
      Obeys D (newRange.make position start stop step) (Value.Under D) := by
    intro start stop step
    unfold newRange.make Generator.ofRange
    by_cases hzero : step.isZero
    · rw [if_pos hzero]
      exact .throw hposition
    · rw [if_neg hzero]
      exact Sequence.create_obeys hposition hposition
  refine (hbounds bounds).bind fun {ys} hlength => ?_
  split
  · exact hmake _ _ _
  · exact hmake _ _ _
  · next hnone hsome =>
    refine .throw (haccepts.resolve_left fun haccepts => ?_)
    have hcount : 2 ≤ ys.length ∧ ys.length ≤ 3 := by
      rw [hlength]
      simpa [arity, Arity.accepts] using haccepts
    obtain ⟨hle, hge⟩ := hcount
    rcases ys with _ | ⟨a, _ | ⟨b, _ | ⟨c, _ | ⟨d, rest⟩⟩⟩⟩
    case cons.cons.nil => exact hnone a b rfl
    case cons.cons.cons.nil => exact hsome a b c rfl
    all_goals
      simp only [List.length_cons, List.length_nil] at hle hge
      omega

/-- What is read as a sequence becomes one, or is refused. -/
theorem toSequence_makes (value : Value) :
    Obeys D (toSequence owner position value) fun v => ∃ id, v = .sequence id := by
  cases value with
  | sequence id => exact .pure ⟨id, rfl⟩
  | vector id => exact Sequence.create_makes hposition hposition
  | _ => exact refuse_obeys hposition

/-- To read a value as a sequence is to make one at the call, or to refuse there. -/
theorem toSequence_obeys (value : Value) :
    Obeys D (toSequence owner position value) (Value.Under D) := by
  refine (toSequence_makes hposition value).imp ?_
  rintro _ ⟨id, rfl⟩
  trivial

/-- A zip keeps two sequences and nothing of its own. -/
theorem newZip_obeys (left right : Value) : Obeys D (newZip position left right) (Value.Under D) := by
  refine (toSequence_makes hposition left).bind ?_
  rintro _ ⟨a, rfl⟩
  refine (toSequence_makes hposition right).bind ?_
  rintro _ ⟨b, rfl⟩
  exact Sequence.create_obeys trivial hposition

end Arguments

/-! ## Running -/

section Collections

variable {machine : Machine} {x f : Value}

include hposition

/-- An element that is taken out of a vector was kept in the store. -/
theorem run_get_obeys (machine : Machine) (x index : Value) :
    Obeys D (run machine position .get [x, index]) (Value.Under D) := by
  refine (expectVector_obeys hposition x).bind fun {id} _ => ?_
  refine (expectIndex_obeys hposition id index).bind fun {i} _ => ?_
  refine (Obeys.view (P := fun xs => ∀ v ∈ xs, Value.Under D v) fun hs _ hv =>
    hs.elements hv).bind fun {xs} hxs => ?_
  cases hvalue : xs[i]? with
  | some value => exact .pure (hxs _ (Array.mem_of_getElem? hvalue))
  | none => exact .fail hposition

/-- To map a vector calls the function; to map a sequence keeps it in the store. -/
theorem run_map_obeys (hmachine : machine.Obeys D) (hf : f.Under D) :
    Obeys D (run machine position .map [x, f]) (Value.Under D) := by
  refine (expectCallable_obeys hposition f).bind fun _ => ?_
  cases x with
  | vector id =>
    refine Obeys.items.bind fun hitems => Obeys.newVectorOf fun item hitem => ?_
    exact hmachine.call hf (Value.allUnder_singleton (hitems item hitem)) hposition
  | sequence id => exact Sequence.derive_obeys id hf
  | _ => exact refuse_obeys hposition

/-- To filter, likewise. -/
theorem run_filter_obeys (hmachine : machine.Obeys D) (hf : f.Under D) :
    Obeys D (run machine position .filter [x, f]) (Value.Under D) := by
  refine (expectCallable_obeys hposition f).bind fun _ => ?_
  cases x with
  | vector id =>
    refine Obeys.items.bind fun hitems => ?_
    exact (filterItems_obeys hposition hmachine.call hf Value.allUnder_nil hitems).bind .newVector
  | sequence id => exact Sequence.derive_obeys id hf
  | _ => exact refuse_obeys hposition

/-- To reduce calls the function with what it gave before and the next element. -/
theorem run_reduce_obeys {seed : Value} (hmachine : machine.Obeys D) (hseed : seed.Under D)
    (hf : f.Under D) : Obeys D (run machine position .reduce [x, seed, f]) (Value.Under D) := by
  have hstep : ∀ {state item : Value}, state.Under D → item.Under D →
      Obeys D (machine.call f [state, item] position) (Value.Under D) :=
    fun hstate hitem => hmachine.call hf (Value.allUnder_pair hstate hitem) hposition
  refine (expectCallable_obeys hposition f).bind fun _ => ?_
  cases x with
  | vector id =>
    refine Obeys.items.bind fun hitems => Obeys.foldlM hseed fun item hitem _ hstate => ?_
    exact hstep hstate (hitems item hitem)
  | sequence id =>
    exact Sequence.foldAll_obeys hmachine.call hmachine.reader id hposition machine.fuel hseed hstep
  | _ => exact refuse_obeys hposition

/-- To take keeps a sequence and a count. -/
theorem run_take_obeys (machine : Machine) (x count : Value) :
    Obeys D (run machine position .take [x, count]) (Value.Under D) := by
  refine (expectCount_obeys hposition count).bind fun _ => ?_
  cases x with
  | vector id =>
    exact Obeys.items.bind fun hitems => .newVector fun v hv => hitems v (List.mem_of_mem_take hv)
  | sequence id => exact Sequence.create_obeys trivial hposition
  | _ => exact refuse_obeys hposition

/-- To skip reads the sequence as often as it is told to. -/
theorem run_skip_obeys (hmachine : machine.Obeys D) (x count : Value) :
    Obeys D (run machine position .skip [x, count]) (Value.Under D) := by
  refine (expectCount_obeys hposition count).bind fun {n} _ => ?_
  cases x with
  | vector id =>
    exact Obeys.items.bind fun hitems => .newVector fun v hv => hitems v (List.mem_of_mem_drop hv)
  | sequence id =>
    exact (Sequence.skip_obeys hmachine.call hmachine.reader id n).bind fun _ => .pure trivial
  | _ => exact refuse_obeys hposition

/-- To collect makes a vector of what the sequence gives. -/
theorem run_collect_obeys (hmachine : machine.Obeys D) (x : Value) :
    Obeys D (run machine position .collect [x]) (Value.Under D) := by
  unfold run
  dsimp only
  split
  · exact .pure trivial
  · refine (expectSequence_obeys hposition _).bind fun {id} _ => ?_
    exact (Sequence.collect_obeys hmachine.call hmachine.reader _ id).bind .newVector

/-- `try_or` calls the body and gives the other value after an error. -/
theorem run_tryOr_obeys {body instead : Value} (hmachine : machine.Obeys D) (hbody : body.Under D)
    (hinstead : instead.Under D) :
    Obeys D (run machine position .tryOr [body, instead]) (Value.Under D) := by
  refine (expectThunk_obeys hposition body).bind fun _ => ?_
  exact (hmachine.call hbody Value.allUnder_nil hposition).recover fun _ => .pure hinstead

/-- `try_catch` calls the body, and the handler after an error; an error that the handler gets was
raised by a running program. -/
theorem run_tryCatch_obeys {body handler : Value} (hmachine : machine.Obeys D)
    (hbody : body.Under D) (hhandler : handler.Under D) :
    Obeys D (run machine position .tryCatch [body, handler]) (Value.Under D) := by
  refine (expectThunk_obeys hposition body).bind fun _ => ?_
  refine (expectCallable_obeys hposition handler).bind fun _ => ?_
  refine (hmachine.call hbody Value.allUnder_nil hposition).recover fun fault => ?_
  exact hmachine.call hhandler
    (Value.allUnder_singleton (v := .error fault.kind) fun _ => fault.phase_kind) hposition

/-- An assertion that fails is reported at the call. -/
theorem run_assert_obeys (machine : Machine) (x : Value) :
    Obeys D (run machine position .assert [x]) (Value.Under D) := by
  unfold run
  dsimp only
  split
  · exact .pure trivial
  · exact (Obeys.view (P := Whatever) fun _ => trivial).bind fun _ => .fail hposition

/-- So is a failed comparison. -/
theorem run_assertEq_obeys (machine : Machine) (x y : Value) :
    Obeys D (run machine position .assertEq [x, y]) (Value.Under D) := by
  have hview : ∀ {α : Type} {look : Store → α}, Obeys D (Action.view look) Whatever :=
    .view fun _ => trivial
  refine hview.bind fun _ => ?_
  split
  · exact .pure trivial
  · exact hview.bind fun _ => hview.bind fun _ => .fail hposition

omit hposition in
/-- To print gives the first of the arguments back. -/
theorem run_print_obeys (machine : Machine) (position : Position) {first : Value} {rest : List Value}
    (h : Value.AllUnder D (first :: rest)) :
    Obeys D (run machine position .print (first :: rest)) (Value.Under D) := by
  refine (Obeys.view (P := Whatever) fun _ => trivial).bind fun _ => ?_
  refine (Obeys.modify fun hs => hs.printLine _).bind fun _ => .pure ?_
  rw [List.getLastD_cons]
  exact h _ (List.getLastD_mem_cons ..)

/-- To print a vector of codes gives the argument back. -/
theorem run_printAscii_obeys (machine : Machine) (hx : x.Under D) :
    Obeys D (run machine position .printAscii [x]) (Value.Under D) := by
  refine (asciiText_obeys hposition x).bind fun _ => ?_
  exact (Obeys.modify fun hs => hs.printLine _).bind fun _ => .pure hx

/-- An exit is what the discipline has to allow. -/
theorem run_exit_obeys (machine : Machine) (x : Value) (hexits : D.exits) :
    Obeys D (run machine position .exit [x]) (Value.Under D) := by
  unfold run
  dsimp only
  split
  · split
    · exact fun _ hs => .interruption hs hexits
    · exact .fail hposition
  · exact refuse_obeys hposition

end Collections

include hposition in
/-- **On a machine that obeys a discipline every built-in function obeys it.** -/
theorem run_obeys {machine : Machine} (hmachine : machine.Obeys D) (native : Native)
    {arguments : List Value} (h : Value.AllUnder D arguments) (hexits : native = .exit → D.exits)
    (haccepts : native.arity.accepts arguments.length ∨ D.misapplies) :
    Obeys D (native.run machine position arguments) (Value.Under D) := by
  unfold run
  split
  case h_1 =>
    refine (expectNumber_obeys hposition _).bind fun _ => ?_
    exact (Obeys.ofNumeric hposition).bind fun _ => .pure trivial
  case h_2 | h_3 => exact logarithm_obeys hposition _ _
  case h_4 | h_5 =>
    refine (expectNumber_obeys hposition _).bind fun _ => ?_
    exact (extremum_obeys hposition _ _ _).bind fun _ => .pure trivial
  case h_6 | h_7 => exact .pure trivial
  case h_8 => exact refuse_obeys hposition
  case h_9 =>
    refine (expectVector_obeys hposition _).bind fun _ => ?_
    exact (Obeys.view (P := Whatever) fun _ => trivial).bind fun _ => .pure trivial
  case h_10 x index => exact run_get_obeys hposition machine x index
  case h_11 x index value =>
    exact setElement_obeys hposition index (h x (by simp)) (h value (by simp))
  case h_12 =>
    refine (expectCount_obeys hposition _).bind fun _ => .newVector fun v hv => ?_
    rw [List.eq_of_mem_replicate hv]
    trivial
  case h_13 f =>
    refine (expectCallable_obeys hposition f).bind fun _ => Sequence.create_obeys ?_ hposition
    exact ⟨h f (by simp), Value.optionUnder_none, hposition⟩
  case h_14 f count =>
    refine (expectCallable_obeys hposition f).bind fun _ => ?_
    refine (expectCount_obeys hposition count).bind fun _ => Sequence.create_obeys ?_ hposition
    exact ⟨h f (by simp), Value.optionUnder_none, hposition⟩
  case h_15 seed f =>
    refine (expectCallable_obeys hposition f).bind fun _ => Sequence.create_obeys ?_ hposition
    exact ⟨h f (by simp), Value.optionUnder_some.mpr (h seed (by simp)), Value.optionUnder_none,
      hposition, fun _ => .inl nofun⟩
  case h_16 => exact newRange_obeys hposition haccepts
  case h_17 x => exact toSequence_obeys hposition x
  case h_18 x f => exact run_map_obeys hposition hmachine (h f (by simp))
  case h_19 x f => exact run_filter_obeys hposition hmachine (h f (by simp))
  case h_20 x seed f =>
    exact run_reduce_obeys hposition hmachine (h seed (by simp)) (h f (by simp))
  case h_21 x count => exact run_take_obeys hposition machine x count
  case h_22 x count => exact run_skip_obeys hposition hmachine x count
  case h_23 left right => exact newZip_obeys hposition left right
  case h_24 x => exact run_collect_obeys hposition hmachine x
  case h_25 x =>
    refine (expectSequence_obeys hposition x).bind fun {id} _ => ?_
    exact Sequence.next_obeys hmachine.call hmachine.reader _ id hposition
  case h_26 x =>
    refine (expectSequence_obeys hposition x).bind fun {id} _ => ?_
    exact Sequence.peek_obeys hmachine.call hmachine.reader _ id hposition
  case h_27 x =>
    refine (expectSequence_obeys hposition x).bind fun {id} _ => ?_
    exact (Sequence.atEnd_obeys hmachine.call hmachine.reader _ id).bind fun _ => .pure trivial
  case h_28 body instead =>
    exact run_tryOr_obeys hposition hmachine (h body (by simp)) (h instead (by simp))
  case h_29 body handler =>
    exact run_tryCatch_obeys hposition hmachine (h body (by simp)) (h handler (by simp))
  case h_30 x => exact run_assert_obeys hposition machine x
  case h_31 x y => exact run_assertEq_obeys hposition machine x y
  case h_32 => exact run_print_obeys machine position h
  case h_33 x => exact run_printAscii_obeys hposition machine (h x (by simp))
  case h_34 x => exact run_exit_obeys hposition machine x (hexits rfl)
  case h_35 =>
    -- as many arguments as the function takes are those of one of the other cases
    refine .throw (haccepts.resolve_left fun haccepts => ?_)
    rcases arguments with _ | ⟨x, _ | ⟨y, _ | ⟨z, _ | ⟨w, rest⟩⟩⟩⟩ <;> cases native <;>
      first
        | (simp [arity, Arity.accepts] at haccepts; done)
        | solve_by_elim [rfl]

end Native

end Abacus
