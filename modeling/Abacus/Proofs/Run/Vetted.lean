import Abacus.Proofs.Discipline.Programs
import Abacus.Proofs.Run.Probed

/-!
# Vetted calls

A vetted call of a built-in function makes sure that the sequences among its arguments are there. If
one is not, it makes that show: it builds a sequence over a source that is not there and gives up.

Programs never come to hold a sequence that is not there. So nothing ever shows
(`Action.applyVetted_safe`): vetted calls take the steps that all calls take, and what they leave has
all parts that it refers to.
-/

namespace Abacus

namespace Action

open Probed (sequencesOf)

/-- Makes it show if a sequence is not there. -/
def vet (there : List SequenceId) : Action Unit := fun s =>
  if ∃ id ∈ there, s.sequences.size ≤ id.index then
    .error .misapplied (s.addSequence ⟨⟨s.sources.size⟩, [], none, .start⟩).2
  else .ok () s

/-- Calls a value. Calls of built-in functions may be vetted. -/
def applyVetted (vetted : Bool) : (fuel : Nat) → Call
  | 0, _, _, _ => throw .outOfFuel
  | fuel + 1, callee, arguments, position =>
    match callee with
    | .function closure => do
      if closure.parameters.length != arguments.length then
        fail (.argumentCount closure.parameters.length arguments.length) position
      let scope ← enclose closure.scope
      bindAll scope position closure.parameters arguments
      evaluate (applyVetted vetted fuel) closure.body scope
    | .native native => do
      if !native.arity.accepts arguments.length then
        fail (.nativeArgumentCount native arguments.length) position
      if vetted then vet (sequencesOf arguments)
      native.run ⟨applyVetted vetted fuel, .ofDepth (applyVetted vetted fuel) fuel, fuel⟩ position
        arguments
    | .type tag => Native.convert tag arguments position
    | other => fail (.callee other.typeTag) position

/-- A call that is not vetted is a call. -/
theorem applyVetted_false (fuel : Nat) : applyVetted false fuel = apply fuel := by
  induction fuel with
  | zero => rfl
  | succ fuel ih =>
    funext callee arguments position
    cases callee <;> simp only [applyVetted, apply, ih, Bool.false_eq_true, if_false]

/-! ## Vetted calls under a discipline -/

section Obeying

variable {D : Discipline}

theorem vet_obeys (hmisapplies : D.misapplies) (there : List SequenceId) :
    Obeys D (vet there) Whatever := by
  intro s hs
  unfold vet
  split
  · refine .interruption (hs.addSequence ⟨?_, ?_, D.start⟩) hmisapplies
    · exact List.forall_mem_nil _
    · exact fun _ h => nomatch h
  · exact .value hs trivial

/-- Vetted calls obey what calls obey, if built-in functions may be run with the wrong arguments. -/
theorem applyVetted_obeys {vetted : Bool} (hexits : D.exits) (hvets : vetted = true → D.misapplies)
    (fuel : Nat) : Call.Obeys D (applyVetted vetted fuel) := by
  induction fuel with
  | zero => exact fun _ _ _ => .throw trivial
  | succ fuel ih =>
    intro f arguments position hf harguments hposition
    cases f with
    | function closure =>
      rw [applyVetted]
      refine .guarded hposition fun _ => (enclose_obeys closure.scope).bind fun {scope} _ => ?_
      refine (bindAll_obeys scope hposition harguments).bind fun _ => ?_
      exact evaluate_obeys ih closure.body scope hf.body fun ho => (hf.orderly ho).2
    | native native =>
      rw [applyVetted]
      refine .guarded hposition fun haccepts => ?_
      have hrun : Obeys D (native.run
          ⟨applyVetted vetted fuel, .ofDepth (applyVetted vetted fuel) fuel, fuel⟩ position arguments)
          (Value.Under D) :=
        Native.run_obeys hposition ⟨ih, Reader.ofDepth_obeys ih fuel⟩ native harguments
          (fun _ => hexits) (.inl (by simpa using haccepts))
      cases vetted with
      | true => exact (vet_obeys (hvets rfl) _).bind fun _ => hrun
      | false => exact hrun
    | type tag => exact Native.convert_obeys hposition tag arguments
    | _ => exact .fail hposition

end Obeying

/-! ## Vetted calls are safe -/

variable {free : ScopeId → Prop} {s : Store}

/-- The sequences among arguments that fit are ones that the store has. -/
theorem sequencesOf_lt {arguments : List Value} (h : Value.AllFit s arguments) {q : SequenceId}
    (hq : q ∈ sequencesOf arguments) : q.index < s.sequences.size := by
  obtain ⟨v, hv, hsequence⟩ := List.mem_filterMap.mp hq
  cases v with
  | sequence id =>
    cases hsequence
    exact h _ hv
  | _ => cases hsequence

/-- Where all arguments are there, nothing shows. -/
theorem vet_safe {arguments : List Value} (h : Value.AllFit s arguments) :
    Safe free (vet (sequencesOf arguments)) Any s := by
  intro _
  have hnone : ¬ ∃ id ∈ sequencesOf arguments, s.sequences.size ≤ id.index :=
    fun ⟨_, hid, hle⟩ => Nat.not_lt.mpr hle (sequencesOf_lt h hid)
  rw [vet, if_neg hnone]
  exact .value .refl trivial

/-- **Vetted calls are safe, whatever is called.** -/
theorem applyVetted_safe (vetted : Bool) (fuel : Nat) : Call.Safe free (applyVetted vetted fuel) := by
  induction fuel with
  | zero => exact fun _ _ => Safe.throw
  | succ fuel ih =>
    intro s f arguments position hf harguments
    cases f with
    | function closure =>
      rw [applyVetted]
      refine Safe.guarded fun _ => (enclose_safe hf).bind fun hgrown hinner => ?_
      refine (bindAll_safe hinner (harguments.grown hgrown)).bind fun hgrown _ => ?_
      exact evaluate_safe ih closure.body (hinner.grown hgrown)
    | native native =>
      rw [applyVetted]
      have hrun : ∀ {s : Store}, Value.AllFit s arguments → Safe free (native.run
          ⟨applyVetted vetted fuel, .ofDepth (applyVetted vetted fuel) fuel, fuel⟩ position arguments)
          Value.Fits s :=
        fun harguments => Native.run_safe ⟨ih, Reader.ofDepth_safe ih fuel⟩ native harguments
      refine Safe.guarded fun _ => ?_
      cases vetted with
      | true => exact (vet_safe harguments).bind fun hgrown _ => hrun (harguments.grown hgrown)
      | false => exact hrun harguments
    | type tag => exact Native.convert_safe tag arguments position
    | _ => exact Safe.fail

end Action

end Abacus
