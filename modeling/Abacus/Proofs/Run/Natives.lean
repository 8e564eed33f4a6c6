import Abacus.Proofs.Sequence.Steps
import Abacus.Run.Natives

/-!
# Built-in functions in steps

Built-in functions check their arguments before they change anything, and hand functions of the
program to the machine that runs them.

**The law** (`Native.run_safe`): on a safe machine every built-in function is safe, with any
arguments.
-/

namespace Abacus

/-- A machine whose calls and whose reader are safe. -/
structure Machine.Safe (free : ScopeId → Prop) (machine : Machine) : Prop where
  call : machine.call.Safe free
  reader : machine.reader.Safe free

namespace Native

open Abacus.Action (Any Safe)

variable {free : ScopeId → Prop} {s : Store} {owner : String} {position : Position}

/-! ## Arguments -/

/-- To refuse an argument changes nothing. -/
theorem refuse_safe {α : Type} {good : Store → α → Prop} {wanted : Wanted} {found : Value} :
    Safe free (refuse owner wanted found position) good s :=
  Safe.fail

/-- To check an argument changes nothing; so with the checks below. -/
theorem expectNumber_safe {value : Value} : Safe free (expectNumber owner position value) Any s := by
  cases value with
  | number n => exact Safe.pure trivial
  | _ => exact refuse_safe

/-- An argument that has to be a count. -/
theorem expectCount_safe {value : Value} : Safe free (expectCount owner position value) Any s := by
  unfold expectCount
  split
  · split
    · exact Safe.fail
    · exact Safe.pure trivial
  · exact refuse_safe

/-- An argument that has to be something to call. -/
theorem expectCallable_safe {value : Value} :
    Safe free (expectCallable owner position value) Any s := by
  unfold expectCallable
  split
  · exact Safe.pure trivial
  · exact refuse_safe

/-- An argument that is a vector is one that the store has. -/
theorem expectVector_safe {value : Value} (h : value.Fits s) :
    Safe free (expectVector owner position value) (fun s' id => id.index < s'.vectors.size) s := by
  cases value with
  | vector id => exact Safe.pure h
  | _ => exact refuse_safe

/-- An argument that has to be an index of a vector. -/
theorem expectIndex_safe {id : VectorId} {value : Value} :
    Safe free (expectIndex owner position id value) Any s := by
  refine expectCount_safe.bind fun _ _ => Safe.view fun _ => ?_
  dsimp only
  split
  · exact Safe.pure trivial
  · exact Safe.fail

/-- An argument that is a sequence is one that the store has. -/
theorem expectSequence_safe {value : Value} (h : value.Fits s) :
    Safe free (expectSequence owner position value) (fun s' id => id.index < s'.sequences.size) s := by
  cases value with
  | sequence id => exact Safe.pure h
  | _ => exact refuse_safe

/-- An argument that has to be a function of nothing. -/
theorem expectThunk_safe {value : Value} : Safe free (expectThunk owner position value) Any s := by
  unfold expectThunk
  split
  · split
    · exact Safe.pure trivial
    · exact Safe.fail
  · split
    · exact Safe.pure trivial
    · exact Safe.fail
  · exact refuse_safe

/-! ## Numbers and types -/

/-- The least or greatest argument is looked for without a change of the store. -/
theorem extremum_safe {direction : Ordering} {best : Number} {rest : List Value} :
    Safe free (extremum owner direction position best rest) Any s := by
  induction rest generalizing best s with
  | nil => exact Safe.pure trivial
  | cons value rest ih =>
    refine expectNumber_safe.bind fun _ _ => ?_
    exact Safe.ofNumeric.bind fun _ _ => ih

/-- A logarithm is computed without a change of the store. -/
theorem logarithm_safe {x : Value} {base : Option Value} :
    Safe free (logarithm position x base) Value.Fits s := by
  refine expectNumber_safe.bind fun _ _ => ?_
  cases base with
  | none => exact Safe.pure trivial
  | some base =>
    refine expectNumber_safe.bind fun _ _ => ?_
    exact Safe.ofNumeric.bind fun _ _ => Safe.pure trivial

/-- A conversion may have to make a vector. -/
theorem convert_safe (tag : TypeTag) (arguments : List Value) (position : Position) :
    Safe free (convert tag arguments position) Value.Fits s := by
  unfold convert
  split
  case h_1 | h_2 =>
    refine expectNumber_safe.bind fun _ _ => ?_
    exact Safe.ofNumeric.bind fun _ _ => Safe.pure trivial
  case h_3 => exact expectNumber_safe.bind fun _ _ => Safe.pure trivial
  case h_4 =>
    refine expectNumber_safe.bind fun _ _ => Safe.ofNumeric.bind fun _ _ => ?_
    exact expectNumber_safe.bind fun _ _ => Safe.ofNumeric.bind fun _ _ => Safe.pure trivial
  all_goals exact Safe.fail

/-! ## Vectors -/

/-- What passes a filter is what the vector held, and the store has it still. -/
theorem filterItems_safe {call : Call} (hcall : call.Safe free) {predicate : Value}
    {kept xs : List Value} (hpredicate : predicate.Fits s) (hkept : Value.AllFit s kept)
    (hxs : Value.AllFit s xs) :
    Safe free (filterItems call predicate position kept xs) Value.AllFit s := by
  induction xs generalizing kept s with
  | nil => exact Safe.pure fun v hv => hkept v (List.mem_reverse.mp hv)
  | cons item rest ih =>
    have hitem := hxs item List.mem_cons_self
    have hrest : Value.AllFit s rest := fun v hv => hxs v (List.mem_cons_of_mem _ hv)
    refine (hcall hpredicate (Value.allFit_singleton hitem)).bind fun hgrown _ => ?_
    replace hpredicate := hpredicate.grown hgrown
    split
    · refine ih hpredicate (fun v hv => ?_) (hrest.grown hgrown)
      rcases List.mem_cons.mp hv with rfl | hv
      · exact hitem.grown hgrown
      · exact hkept.grown hgrown v hv
    · exact ih hpredicate (hkept.grown hgrown) (hrest.grown hgrown)
    · exact Safe.fail

/-- An element is replaced after the vector, the index and the new value have been checked. -/
theorem setElement_safe {vector index value : Value} (hvector : vector.Fits s)
    (hvalue : value.Fits s) : Safe free (setElement position vector index value) Value.Fits s := by
  refine (expectVector_safe hvector).bind fun {id _} hgrown _ => ?_
  replace hvector := hvector.grown hgrown
  replace hvalue := hvalue.grown hgrown
  refine expectIndex_safe.bind fun {i _} hgrown _ => ?_
  replace hvector := hvector.grown hgrown
  replace hvalue := hvalue.grown hgrown
  refine Safe.view fun _ => Safe.guarded fun hreaches => ?_
  refine (Safe.modify fun _ => .setElement hvalue (Bool.eq_false_iff.mpr hreaches)).bind
    fun hgrown _ => Safe.pure (hvector.grown hgrown)

/-- A text is read from a vector without a change of the store. -/
theorem asciiText_safe {value : Value} (h : value.Fits s) :
    Safe free (asciiText value position) Any s := by
  refine (expectVector_safe h).bind fun _ _ => Safe.view fun _ => ?_
  split
  · exact Safe.pure trivial
  · exact Safe.fail

/-! ## Sequences -/

/-- A range is a new source, and a new sequence over it. -/
theorem newRange_safe {bounds : List Value} :
    Safe free (newRange position bounds) Value.Fits s := by
  have hbounds : ∀ {xs : List Value} {s : Store}, Safe free (xs.mapM (expectBound position)) Any s := by
    intro xs
    induction xs with
    | nil => exact Safe.pure trivial
    | cons x rest ih =>
      intro s
      rw [List.mapM_cons]
      refine Safe.bind (P := Any) ?_ fun _ _ => ih.bind fun _ _ => Safe.pure trivial
      refine expectNumber_safe.bind fun _ _ => ?_
      split
      · exact refuse_safe
      · exact Safe.pure trivial
  have hmake : ∀ {start stop step : Number} {s : Store},
      Safe free (newRange.make position start stop step) Value.Fits s := by
    intro start stop step s
    unfold newRange.make Generator.ofRange
    split
    · next hgenerator =>
      split at hgenerator
      · cases hgenerator
      · cases hgenerator
        exact Sequence.create_safe trivial
    · exact Safe.throw
  refine hbounds.bind fun _ _ => ?_
  split
  · exact hmake
  · exact hmake
  · exact Safe.throw

/-- A sequence is made over a vector that the store has, or is there already. -/
theorem toSequence_safe {value : Value} (h : value.Fits s) :
    Safe free (toSequence owner position value) Value.Fits s := by
  cases value with
  | sequence id => exact Safe.pure h
  | vector id => exact Sequence.create_safe h
  | _ => exact refuse_safe

/-- A zip is made over two sequences that the store has. -/
theorem newZip_safe {left right : Value} (hleft : left.Fits s) (hright : right.Fits s) :
    Safe free (newZip position left right) Value.Fits s := by
  refine (toSequence_safe hleft).bind fun {a _} hgrown ha => ?_
  refine (toSequence_safe (hright.grown hgrown)).bind fun {b _} hgrown hb => ?_
  replace ha := ha.grown hgrown
  split
  · exact Sequence.create_safe ⟨ha, hb⟩
  · exact Safe.throw

/-! ## Running -/

section Collections

variable {machine : Machine} {x f : Value}

/-- An element of a vector is something the store has. -/
theorem run_get_safe (machine : Machine) {index : Value} (hx : x.Fits s) :
    Safe free (run machine position .get [x, index]) Value.Fits s := by
  refine (expectVector_safe hx).bind fun {id _} _ _ => expectIndex_safe.bind fun {i s'} _ _ => ?_
  refine Safe.view fun sound => ?_
  cases hvalue : (s'.vector id)[i]? with
  | some value => exact Safe.pure (sound.elements (Array.mem_of_getElem? hvalue))
  | none => exact Safe.fail

/-- To map a vector is to make one of what the calls give; to map a sequence is to make one that
calls later. -/
theorem run_map_safe (hmachine : machine.Safe free) (hx : x.Fits s) (hf : f.Fits s) :
    Safe free (run machine position .map [x, f]) Value.Fits s := by
  refine expectCallable_safe.bind fun hgrown _ => ?_
  replace hx := hx.grown hgrown
  replace hf := hf.grown hgrown
  cases x with
  | vector id =>
    refine Safe.items.bind fun hgrown hitems => Safe.newVectorOf fun item hitem _ hgrown' => ?_
    exact hmachine.call ((hf.grown hgrown).grown hgrown')
      (Value.allFit_singleton ((hitems item hitem).grown hgrown'))
  | sequence id => exact Sequence.derive_safe hx hf
  | _ => exact refuse_safe

/-- To filter, likewise. -/
theorem run_filter_safe (hmachine : machine.Safe free) (hx : x.Fits s) (hf : f.Fits s) :
    Safe free (run machine position .filter [x, f]) Value.Fits s := by
  refine expectCallable_safe.bind fun hgrown _ => ?_
  replace hx := hx.grown hgrown
  replace hf := hf.grown hgrown
  cases x with
  | vector id =>
    refine Safe.items.bind fun hgrown hitems => ?_
    refine (filterItems_safe hmachine.call (hf.grown hgrown) (fun _ hv => by cases hv) hitems).bind
      fun _ hkept => Safe.newVector hkept
  | sequence id => exact Sequence.derive_safe hx hf
  | _ => exact refuse_safe

/-- To reduce is to call with what the call before gave, from left to right. -/
theorem run_reduce_safe {seed : Value} (hmachine : machine.Safe free) (hx : x.Fits s)
    (hseed : seed.Fits s) (hf : f.Fits s) :
    Safe free (run machine position .reduce [x, seed, f]) Value.Fits s := by
  refine expectCallable_safe.bind fun {_ s₁} hgrown _ => ?_
  replace hx := hx.grown hgrown
  replace hf := hf.grown hgrown
  replace hseed := hseed.grown hgrown
  have hstep : ∀ {state item s'}, s₁.Grown s' → state.Fits s' → item.Fits s' →
      Safe free (machine.call f [state, item] position) Value.Fits s' :=
    fun hgrown hstate hitem => hmachine.call (hf.grown hgrown) (Value.allFit_pair hstate hitem)
  cases x with
  | vector id =>
    refine Safe.items.bind fun hgrown hitems => Safe.foldlM (hseed.grown hgrown) ?_
    intro item hitem state s' hgrown' hstate
    exact hstep (hgrown.trans hgrown') hstate ((hitems item hitem).grown hgrown')
  | sequence id =>
    -- the function has to stay in reach for as long as the sequence is consumed
    refine (Sequence.foldAll_safe (P := fun s' state => s₁.Grown s' ∧ state.Fits s')
      hmachine.call hmachine.reader position machine.fuel hx ⟨.refl s₁, hseed⟩
      (fun hgrown h => ⟨h.1.trans hgrown, h.2.grown hgrown⟩) ?_).imp fun _ h => h.2
    intro state item s' hstate hitem
    exact (hstep hstate.1 hstate.2 hitem).imp fun hgrown h => ⟨hstate.1.trans hgrown, h⟩
  | _ => exact refuse_safe

/-- To take is to make a source over a sequence that the store has. -/
theorem run_take_safe (machine : Machine) {count : Value} (hx : x.Fits s) :
    Safe free (run machine position .take [x, count]) Value.Fits s := by
  refine expectCount_safe.bind fun hgrown _ => ?_
  replace hx := hx.grown hgrown
  cases x with
  | vector id =>
    exact Safe.items.bind fun _ hitems => Safe.newVector fun v hv => hitems v (List.mem_of_mem_take hv)
  | sequence id => exact Sequence.create_safe hx
  | _ => exact refuse_safe

/-- To skip is to read a sequence that the store has. -/
theorem run_skip_safe {count : Value} (hmachine : machine.Safe free) (hx : x.Fits s) :
    Safe free (run machine position .skip [x, count]) Value.Fits s := by
  refine expectCount_safe.bind fun {n s₁} hgrown _ => ?_
  replace hx := hx.grown hgrown
  cases x with
  | vector id =>
    exact Safe.items.bind fun _ hitems => Safe.newVector fun v hv => hitems v (List.mem_of_mem_drop hv)
  | sequence id =>
    refine (Sequence.skip_safe hmachine.call hmachine.reader n hx).bind fun hgrown _ => ?_
    exact Safe.pure (hx.grown hgrown)
  | _ => exact refuse_safe

/-- To collect is to make a vector of what a sequence gives. -/
theorem run_collect_safe (hmachine : machine.Safe free) (hx : x.Fits s) :
    Safe free (run machine position .collect [x]) Value.Fits s := by
  unfold run
  dsimp only
  split
  · exact Safe.pure hx
  · refine (expectSequence_safe hx).bind fun _ hid => ?_
    refine (Sequence.collect_safe hmachine.call hmachine.reader _ hid).bind
      fun _ hitems => Safe.newVector hitems

end Collections

section Control

variable {machine : Machine} {x : Value}

/-- After an error the other value is still one that the store has. -/
theorem run_tryOr_safe {body instead : Value} (hmachine : machine.Safe free) (hbody : body.Fits s)
    (hinstead : instead.Fits s) :
    Safe free (run machine position .tryOr [body, instead]) Value.Fits s := by
  refine expectThunk_safe.bind fun hgrown _ => ?_
  replace hinstead := hinstead.grown hgrown
  refine (hmachine.call (hbody.grown hgrown) fun _ hv => by cases hv).recover fun hgrown => ?_
  exact Safe.pure (hinstead.grown hgrown)

/-- After an error the handler is called, in the store that the error left. -/
theorem run_tryCatch_safe {body handler : Value} (hmachine : machine.Safe free)
    (hbody : body.Fits s) (hhandler : handler.Fits s) :
    Safe free (run machine position .tryCatch [body, handler]) Value.Fits s := by
  refine expectThunk_safe.bind fun hgrown _ => ?_
  replace hbody := hbody.grown hgrown
  replace hhandler := hhandler.grown hgrown
  refine expectCallable_safe.bind fun hgrown _ => ?_
  replace hbody := hbody.grown hgrown
  replace hhandler := hhandler.grown hgrown
  refine (hmachine.call hbody fun _ hv => by cases hv).recover fun hgrown => ?_
  exact hmachine.call (hhandler.grown hgrown) (Value.allFit_singleton trivial)

/-- An assertion changes nothing. -/
theorem run_assert_safe (machine : Machine) (x : Value) :
    Safe free (run machine position .assert [x]) Value.Fits s := by
  unfold run
  dsimp only
  split
  · exact Safe.pure trivial
  · exact Safe.view fun _ => Safe.fail

/-- Nor does a comparison. -/
theorem run_assertEq_safe (machine : Machine) (x y : Value) :
    Safe free (run machine position .assertEq [x, y]) Value.Fits s := by
  refine Safe.view fun _ => ?_
  split
  · exact Safe.pure trivial
  · exact Safe.view fun _ => Safe.view fun _ => Safe.fail

/-- To print adds a line and gives the first argument back. -/
theorem run_print_safe (machine : Machine) (position : Position) {rest : List Value}
    (h : Value.AllFit s (x :: rest)) :
    Safe free (run machine position .print (x :: rest)) Value.Fits s := by
  refine Safe.view fun _ => (Safe.modify fun _ => .printLine).bind fun hgrown _ => Safe.pure ?_
  rw [List.getLastD_cons]
  exact h.grown hgrown _ (List.getLastD_mem_cons ..)

/-- To print a vector of codes, likewise. -/
theorem run_printAscii_safe (machine : Machine) (hx : x.Fits s) :
    Safe free (run machine position .printAscii [x]) Value.Fits s := by
  refine (asciiText_safe hx).bind fun hgrown _ => ?_
  replace hx := hx.grown hgrown
  exact (Safe.modify fun _ => .printLine).bind fun hgrown _ => Safe.pure (hx.grown hgrown)

/-- An exit changes nothing. -/
theorem run_exit_safe (machine : Machine) (x : Value) :
    Safe free (run machine position .exit [x]) Value.Fits s := by
  unfold run
  dsimp only
  split
  · split
    · exact Safe.throw_bind
    · exact Safe.fail
  · exact refuse_safe

end Control

/-- **On a safe machine every built-in function is safe.** -/
theorem run_safe {machine : Machine} (hmachine : machine.Safe free) (native : Native)
    {arguments : List Value} (h : Value.AllFit s arguments) :
    Safe free (native.run machine position arguments) Value.Fits s := by
  unfold run
  split
  case h_1 =>
    refine expectNumber_safe.bind fun _ _ => ?_
    exact Safe.ofNumeric.bind fun _ _ => Safe.pure trivial
  case h_2 | h_3 => exact logarithm_safe
  case h_4 | h_5 =>
    refine expectNumber_safe.bind fun _ _ => ?_
    exact extremum_safe.bind fun _ _ => Safe.pure trivial
  case h_6 | h_7 => exact Safe.pure trivial
  case h_8 => exact refuse_safe
  case h_9 x =>
    refine (expectVector_safe (h x (by simp))).bind fun _ _ => ?_
    exact Safe.view fun _ => Safe.pure trivial
  case h_10 x index => exact run_get_safe machine (h x (by simp))
  case h_11 x index value => exact setElement_safe (h x (by simp)) (h value (by simp))
  case h_12 =>
    refine expectCount_safe.bind fun _ _ => Safe.newVector fun v hv => ?_
    rw [List.eq_of_mem_replicate hv]
    trivial
  case h_13 f =>
    refine expectCallable_safe.bind fun hgrown _ => Sequence.create_safe ?_
    exact ⟨(h f (by simp)).grown hgrown, Value.optionFits_none⟩
  case h_14 f count =>
    refine expectCallable_safe.bind fun hgrown _ => expectCount_safe.bind fun hgrown' _ => ?_
    refine Sequence.create_safe ⟨((h f (by simp)).grown hgrown).grown hgrown', Value.optionFits_none⟩
  case h_15 seed f =>
    refine expectCallable_safe.bind fun hgrown _ => Sequence.create_safe ?_
    exact ⟨(h f (by simp)).grown hgrown,
      Value.optionFits_some.mpr ((h seed (by simp)).grown hgrown), Value.optionFits_none⟩
  case h_16 => exact newRange_safe
  case h_17 x => exact toSequence_safe (h x (by simp))
  case h_18 x f => exact run_map_safe hmachine (h x (by simp)) (h f (by simp))
  case h_19 x f => exact run_filter_safe hmachine (h x (by simp)) (h f (by simp))
  case h_20 x seed f =>
    exact run_reduce_safe hmachine (h x (by simp)) (h seed (by simp)) (h f (by simp))
  case h_21 x count => exact run_take_safe machine (h x (by simp))
  case h_22 x count => exact run_skip_safe hmachine (h x (by simp))
  case h_23 left right => exact newZip_safe (h left (by simp)) (h right (by simp))
  case h_24 x => exact run_collect_safe hmachine (h x (by simp))
  case h_25 x =>
    refine (expectSequence_safe (h x (by simp))).bind fun _ hid => ?_
    exact Sequence.next_safe hmachine.call hmachine.reader _ _ hid
  case h_26 x =>
    refine (expectSequence_safe (h x (by simp))).bind fun _ hid => ?_
    exact Sequence.peek_safe hmachine.call hmachine.reader _ _ hid
  case h_27 x =>
    refine (expectSequence_safe (h x (by simp))).bind fun _ hid => ?_
    exact (Sequence.atEnd_safe hmachine.call hmachine.reader _ hid).bind fun _ _ => Safe.pure trivial
  case h_28 body instead => exact run_tryOr_safe hmachine (h body (by simp)) (h instead (by simp))
  case h_29 body handler =>
    exact run_tryCatch_safe hmachine (h body (by simp)) (h handler (by simp))
  case h_30 x => exact run_assert_safe machine x
  case h_31 x y => exact run_assertEq_safe machine x y
  case h_32 => exact run_print_safe machine position h
  case h_33 x => exact run_printAscii_safe machine (h x (by simp))
  case h_34 x => exact run_exit_safe machine x
  case h_35 => exact Safe.throw

end Native

end Abacus
