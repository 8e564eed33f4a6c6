import Abacus.Proofs.Run.Checked
import Abacus.Proofs.Run.Exact

/-!
# Guards that are never needed

The evaluator is ready for blocks without statements, for parameters that are named twice, for
sequences without a seed and for names that vanish between two looks at them. None of this can be
written or come about: trees are read well formed, functions and sequences are made from such trees,
and what is made stays as it is made.

Stores that programs leave hold only what well-formed trees make: this is a discipline, `ofTrees`. In
such a store a checked action agrees with the action, if the check does nothing where all is fine and
all is fine whenever the check is made. Agreement is an exact comparison (`Checked.agreeing`,
`Checked.exact_agreeing`).

**The law** (`Checked.guards_never_needed`): trees are well formed; a source that is checked at every
moment at which a guard stands ends as it does otherwise, whatever a check does that finds something
wrong; no built-in function is run with arguments that it does not take; and an assignment fails for
reserved names only.
-/

namespace Abacus

open Abacus.Action (Obeys)

/-- Programs hold what well-formed trees make. They may report anywhere and end by an exit. -/
def Discipline.ofTrees : Discipline := ⟨fun _ => True, trivial, True, False, True⟩

open Discipline (ofTrees)

/-! ## What the store holds -/

theorem Generator.Under.values {D : Discipline} {g : Generator} (h : g.Under D) {v : Value}
    (hv : v ∈ g.values) : v.Under D := by
  cases g with
  | index f place limit cached position =>
    obtain ⟨hf, hcached, -⟩ := h
    obtain rfl | hv := List.mem_cons.mp hv
    · exact hf
    · exact hcached v (Option.mem_toList.mp hv)
  | iterate f upcoming previous position =>
    obtain ⟨hf, hupcoming, hprevious, -⟩ := h
    obtain rfl | hv := List.mem_cons.mp hv
    · exact hf
    · exact (List.mem_append.mp hv).elim (fun hv => hupcoming v (Option.mem_toList.mp hv))
        fun hv => hprevious v (Option.mem_toList.mp hv)
  | _ => cases hv

/-- What a discipline asks of values it asks of all that the store holds. -/
theorem Store.Under.of_stores {D : Discipline} {s : Store} (h : s.Under D) {v : Value}
    (hv : s.Stores v) : v.Under D := by
  cases hv with
  | binding hscope hbinding => exact h.scopes _ hscope _ hbinding
  | element hitems hv => exact h.vectors _ hitems v hv
  | generator hsource hv => exact (h.sources _ hsource).values hv
  | @transformer q t hq ht =>
    have ht := (h.sequences q hq).transformers t ht
    cases t <;> exact ht
  | pending hq hfound => exact (h.sequences _ hq).pending _ hfound

/-- Where a moment finds what it should, all is fine. -/
theorem Store.Under.fine {s : Store} (h : s.Under ofTrees) {m : Moment} (hm : m.Expected s) :
    m.Fine s :=
  ⟨hm, fun _ hkind => h.of_stores hkind trivial⟩

/-! ## Assignments -/

/-- A name that is bound is bound where it is looked for the second time. -/
theorem Store.reserved_of_assignPlace {s : Store} {here : ScopeId} {name : String} {isLocal : Bool}
    {fault : NameFault} (h : s.assignPlace here name isLocal = .error fault) :
    fault = .reserved name := by
  unfold assignPlace checkAssignable at h
  by_cases hreserved : s.isReserved here name
  · rw [if_pos hreserved] at h
    cases h
    rfl
  · rw [if_neg hreserved] at h
    simp only [bind, Except.bind, pure, Except.pure] at h
    by_cases hset : (!isLocal && s.contains here name) = true
    · rw [if_pos hset, setPlace] at h
      have hfound : (s.binder? here name).isSome := by
        rw [binder?, List.find?_isSome]
        exact List.any_eq_true.mp (Bool.and_eq_true_iff.mp hset).2
      obtain ⟨scope, hscope⟩ := Option.isSome_iff_exists.mp hfound
      rw [hscope] at h
      cases h
    · rw [if_neg hset] at h
      cases h

/-- What a name is bound to is held. -/
theorem Store.stores_of_get? {s : Store} {id : ScopeId} {name : String} {v : Value}
    (h : (s.scope id).get? name = some v) : s.Stores v := by
  obtain ⟨scope, hscope, hmem⟩ := exists_of_get? h
  exact .binding hscope hmem

namespace Checked

/-! ## Agreement -/

/-- In every store that holds what well-formed trees make, two actions do the same. -/
def Agree {α : Type} (x : Probed Store α) (y : Action α) : Prop :=
  ∀ s : Store, s.Under ofTrees → x s = y s

/-- Beside the store there is nothing for a quiet action to leave alone. -/
theorem quiet_eq {α : Type} (y : Action α) : (Probed.quiet y : Probed Store α) = y := by
  funext s
  rw [Probed.quiet]
  dsimp only [Carries.store, Carries.put]
  cases y s <;> rfl

namespace Agree

variable {α β : Type} {P : α → Prop}

/-- **Actions made of actions that agree agree.** -/
theorem bind {x : Probed Store α} {y : Action α} {f : α → Probed Store β} {g : α → Action β}
    (h : Agree x y) (hy : Obeys ofTrees y P) (hf : ∀ {a}, P a → Agree (f a) (g a)) :
    Agree (x >>= f) (y >>= g) := by
  intro s hs
  have hx := h s hs
  have hy := hy s hs
  cases hresult : y s with
  | ok a s' =>
    rw [hresult] at hx hy
    rw [Action.bind_ok hx, Action.bind_ok hresult]
    cases hy with
    | value hs' ha => exact hf ha s' hs'
  | error e s' =>
    rw [hresult] at hx
    rw [Action.bind_error hx, Action.bind_error hresult]

theorem quiet {y : Action α} : Agree (Probed.quiet y) y := fun s _ => congrFun (quiet_eq y) s

/-- A check changes nothing if it finds all fine. -/
theorem checked {check : Check} (hcheck : check.Silent) {m : Moment} {x : Probed Store α}
    {y : Action α} (hm : ∀ s : Store, s.Under ofTrees → m.Expected s) (h : Agree x y) :
    Agree (check m >>= fun _ => x) y := by
  intro s hs
  rw [Action.bind_ok (hcheck m s (hs.fine (hm s hs)))]
  exact h s hs

/-- A handler takes the same faults, in a store that holds what well-formed trees make. -/
theorem recover {x : Probed Store α} {y : Action α} {handler : Fault → Probed Store α}
    {handler' : Fault → Action α} (h : Agree x y) (hy : Obeys ofTrees y P)
    (hhandler : ∀ fault, Agree (handler fault) (handler' fault)) :
    Agree (Probed.recover x handler) (Action.recover y handler') := by
  intro s hs
  have hx := h s hs
  have hy := hy s hs
  unfold Probed.recover Action.recover
  rw [hx]
  cases hresult : y s with
  | ok a s' => rfl
  | error e s' =>
    rw [hresult] at hy
    cases hy with
    | interruption hs' =>
      cases e with
      | fault error => exact hhandler error.fault s' hs'
      | _ => rfl

/-- A source that refuses to be read is still as it should be. -/
theorem holding {x : Probed Store α} {y : Action α} {id : SourceId} (h : Agree x y) :
    Agree (Probed.holding id x) (Sequence.holding id y) := by
  intro s hs
  have hheld := h (s.modifySource id ({ · with busy := true })) (hs.modifySource fun hg => hg)
  unfold Probed.holding Sequence.holding
  dsimp only [Carries.store, Carries.put]
  rw [hheld]
  cases y _ <;> rfl

end Agree

/-- To agree with actions is to compare with them. -/
def agreeing : Comparison Store where
  discipline := ofTrees
  place _ := trivial
  exits := trivial
  Ties _ x y := Agree x y
  pure _ := fun _ _ => rfl
  throw _ := fun _ _ => rfl
  bind h hy hf := h.bind hy hf
  recover h hy hhandler := h.recover hy hhandler
  quiet _ := .quiet
  position _ := .quiet

variable {check : Check} (hcheck : check.Silent)

include hcheck

/-- **Agreement is an exact comparison** if a check does nothing where all is fine: at each moment of
a run in such a store, all is. -/
theorem exact_agreeing : agreeing.Exact (probe check) where
  expression hw := .checked hcheck fun _ _ => hw trivial
  valueless ho := absurd trivial ho
  calling := agreeing.harmless_pure
  entering hclosure hlength := by
    obtain ⟨hnodup, -⟩ := hclosure.orderly trivial
    exact .checked hcheck fun _ _ hfree => Action.callScope_binds hlength hnodup hfree
  anywhere h := h
  lasting _ := .quiet
  holding h := Agree.holding h
  running := agreeing.harmless_pure
  exiting := .quiet
  building := agreeing.harmless_pure
  element {g} hg := by
    refine .checked hcheck fun _ _ f p heq => ?_
    rw [heq] at hg
    obtain ⟨-, -, -, -, hknown⟩ := hg
    exact (hknown trivial).elim (fun h => h rfl) fun h => h rfl
  applying h := h
  giving := agreeing.harmless_pure
  asking h := h

/-- **A checked source ends as it does otherwise**, from a store that programs have left. -/
theorem runSource_eq {s : Store} (hs : s.Under ofTrees) (source : String) (here : ScopeId) :
    runSource check source here s = Abacus.runSource source here s := by
  have hthrough := (exact_agreeing hcheck).through
  have hentries : agreeing.Ties []
      (Probed.runEntries (probe check) (Probed.apply (probe check) Action.plenty) here
        (Script.read source.toList .start).entries none)
      (Script.evaluate (Action.apply Action.plenty) here (Script.read source.toList .start).entries
        none) :=
    Action.applyVetted_false Action.plenty ▸
      hthrough.runEntries (hthrough.apply Action.plenty) here none
        fun _ => Script.read_wellFormed source.toList .start
  replace hentries := hentries s hs
  revert hentries
  unfold runSource Probed.runSource Probed.runScript Abacus.runSource Script.run
  generalize Probed.runEntries _ _ _ _ _ s = checked
  rintro rfl
  cases Script.evaluate _ _ _ _ s <;> rfl

omit hcheck

open Store (outermost initial)

/-- Sources leave what well-formed trees make. -/
theorem under_afterSources (sources : List String) :
    (initial.2.afterSources outermost sources).Under ofTrees :=
  Store.under_initial.afterSources trivial outermost fun _ _ _ _ => trivial

/-- **Guards are never needed.** Trees are read well formed. A source that runs after others ends as
it does when it is checked: so at every moment that comes about blocks have values, parameters stand
for their arguments, sequences know what to go on from, and the errors in the store are of kinds that
programs raise; and so are those that the source leaves. No built-in function is run with arguments
that it does not take. An assignment fails for a reserved name only, and never because the name that
it is to change is not found. -/
theorem guards_never_needed :
    (∀ (tokens : List Token) (stop : Position) (e : Expr),
      Expr.ofTokens tokens stop = .ok e → e.WellFormed) ∧
    (∀ check : Check, check.Silent →
      ∀ (earlier : List String) (source : String),
        let s := initial.2.afterSources outermost earlier
        let result := Abacus.runSource source outermost s
        runSource check source outermost s = result ∧
          (∀ s', result ≠ .error (.run .misapplied) s') ∧
          ∀ kind, (storeAfter result).Stores (.error kind) → kind.phase = .runtime) ∧
    ∀ (s : Store) (here : ScopeId) (name : String) (value : Value) (isLocal : Bool)
      (fault : NameFault), s.assign here name value isLocal = .error fault →
        fault = .reserved name := by
  refine ⟨fun _ _ _ => Expr.wellFormed_ofTokens, ?_, ?_⟩
  · intro check hcheck earlier source s result
    have hs : s.Under ofTrees := under_afterSources earlier
    obtain ⟨hafter, herror⟩ : (storeAfter result).Under ofTrees ∧ _ :=
      hs.runSource trivial outermost fun _ _ => trivial
    exact ⟨runSource_eq hcheck hs source outermost, fun s' hmisapplied => herror _ s' hmisapplied,
      fun kind hkind => hafter.of_stores hkind trivial⟩
  · intro s here name value isLocal fault hfault
    unfold Store.assign at hfault
    cases hplace : s.assignPlace here name isLocal with
    | ok place =>
      rw [hplace] at hfault
      cases hfault
    | error found =>
      rw [hplace] at hfault
      cases hfault
      exact Store.reserved_of_assignPlace hplace

/-- Ends the run where a guard would be needed. -/
def alarm : Check
  | .valueless | .element (.iterate _ none none _) => throw .misapplied
  | _ => pure ()

theorem silent_alarm : alarm.Silent := by
  intro m s hfine
  cases m with
  | valueless => exact hfine.expected.elim
  | element generator =>
    cases generator with
    | iterate f upcoming previous position =>
      cases upcoming with
      | some value => rfl
      | none =>
        cases previous with
        | some value => rfl
        | none => exact absurd rfl (hfine.expected f position)
    | _ => rfl
  | _ => rfl

/-- Functions are called, elements are asked for and an error is caught and kept; no alarm is
raised. -/
theorem guards_never_needed_alarm :
    let tokens : List Token :=
      [.opening .curly, .identifier "x", .closing .curly].map fun kind => ⟨kind, .start⟩
    let s := initial.2.afterSources outermost ["double = |n| \x7b n * 2 \x7d", "e = 0"]
    let source := "p = iterate(1, double); e = try_catch(|| 1 / 0, |k| k); [next(p), next(p), e]"
    let result := Abacus.runSource source outermost s
    (∃ e, Expr.ofTokens tokens .start = .ok e ∧ e.WellFormed) ∧
      alarm.Silent ∧ runSource alarm source outermost s = result ∧
      (storeAfter result).text (.vector ⟨0⟩) = "[1, 2, DivisionByZero]" ∧
      (∃ kind, (storeAfter result).Stores (.error kind) ∧ kind.phase = .runtime) ∧
      ∃ fault, s.assign outermost "pi" (.integer 3) false = .error fault ∧ fault = .reserved "pi" := by
  intro tokens s source result
  obtain ⟨hwellFormed, hruns, hassign⟩ := guards_never_needed
  have htree : Expr.ofTokens tokens .start = .ok (.block [.identifier "x" .start] .start) := rfl
  obtain ⟨hrun, -, herrors⟩ :=
    hruns alarm silent_alarm ["double = |n| \x7b n * 2 \x7d", "e = 0"] source
  have hbound : (((storeAfter result).scope outermost).get? "e").map
      (Store.sameAtom (.error .divisionByZero)) = some true := by decide +kernel
  obtain ⟨held, hheld, hsame⟩ := Option.map_eq_some_iff.mp hbound
  obtain ⟨kind, rfl⟩ : ∃ kind, held = .error kind := by
    cases held with
    | error kind => exact ⟨kind, rfl⟩
    | _ => cases hsame
  replace hheld := Store.stores_of_get? hheld
  have hreserved : s.assign outermost "pi" (.integer 3) false = .error (.reserved "pi") := by
    rw [Store.assign, Store.assignPlace, Store.checkAssignable, if_pos (by decide +kernel)]
    rfl
  exact ⟨⟨_, htree, hwellFormed tokens .start _ htree⟩, silent_alarm, hrun, by decide +kernel,
    ⟨_, hheld, herrors _ hheld⟩, _, hreserved, hassign s outermost "pi" (.integer 3) false _ hreserved⟩

/-- A check that finds something wrong shows in how the run ends, also under a handler. -/
example :
    let check : Check := fun
      | .element _ => throw .misapplied
      | _ => pure ()
    (match runSource check "try_or(|| next(iterate(1, |n| n)), 0)" outermost initial.2 with
      | .error (.run .misapplied) _ => true
      | _ => false) = true := by decide +kernel

end Checked

end Abacus
