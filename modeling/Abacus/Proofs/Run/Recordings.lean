import Abacus.Proofs.Run.TrackedRuns
import Abacus.Proofs.Store.Reached

/-!
# Recordings

A recorded run ends as the run that it records, from any store that programs can reach: no built-in
function is ever given a sequence that is not there, so no recorded run is given up.

**The laws** (`Recorded.Faithful.runSource`, `Recorded.faithful_afterSources`): recording a source is
faithful, and so is recording source after source from the beginning. A faithful record is orderly.
-/

namespace Abacus

theorem Store.Sound.rooted {s : Store} (h : s.Sound) : s.Rooted := fun _ hq => (h.sequence hq).source

namespace Recorded

open Store (initial outermost)

/-- How a run ends, whatever it leaves. -/
def ending {ε σ α : Type} : EStateM.Result ε σ α → Except ε α
  | .ok a _ => .ok a
  | .error e _ => .error e

/-- What is there when a recorded run begins, beside what is there when the run does. -/
structure Faithful (strict : Bool) (w : Noted) (t : Store) : Prop where
  fine : Fine w
  mirrors : Mirrors strict w.store t
  reached : t.Reached
  settled : w.running = []
  /-- No source is at work. -/
  free : ∀ id, (w.store.source id).busy = false

variable {strict : Bool} {w : Noted} {t : Store}

/-- Between two runs nothing is at work. -/
theorem Faithful.follows {w' : Noted} {t' : Store} (h : Faithful strict w t)
    (follows : Follows strict w w' t') (reached : t'.Reached) : Faithful strict w' t' where
  fine := follows.fine
  mirrors := follows.mirrors
  reached := reached
  settled := follows.running.trans h.settled
  free id := follows.goes.idle id (h.free id)

theorem Faithful.opened (h : Faithful strict w t) : Action.Open (fun _ => True) t outermost :=
  ⟨trivial, Nat.lt_of_lt_of_le (by decide) (Store.Path.grown h.reached).scopes⟩

/-- The statements of a source, recorded. -/
def recordEntries (strict : Bool) (fuel : Nat) (entries : List ScriptEntry) :
    Recorded (Option Value) :=
  Probed.runEntries (probe strict) (Probed.apply (probe strict) fuel) outermost entries none

/-- **Recorded statements track statements.** -/
theorem recordEntries_tracks {vetted : Bool} (fuel : Nat) (entries : List ScriptEntry) :
    Tracks strict vetted [] (recordEntries strict fuel entries)
      (Script.evaluate (Action.applyVetted vetted fuel) outermost entries none) :=
  through_tracking.runEntries (through_tracking.apply fuel) outermost none fun ho => ho.elim

/-- A recorded run is not given up: a vetted one shows nothing. -/
theorem Faithful.not_strayed (h : Faithful strict w t) (fuel : Nat) {entries : List ScriptEntry}
    {e : Interruption} {w' : Noted} (hrun : recordEntries strict fuel entries w = .error e w') :
    .strayed ∉ w'.entries := by
  have htracked : Tracks strict true [] (recordEntries strict fuel entries)
      (Script.evaluate (Action.applyVetted true fuel) outermost entries none) :=
    recordEntries_tracks fuel entries
  have hend := htracked w t h.fine h.mirrors (List.forall_mem_nil _)
  have hsafe : Action.Safe (fun _ => True)
      (Script.evaluate (Action.applyVetted true fuel) outermost entries none) Action.Any t :=
    Script.evaluate_safe (Action.applyVetted_safe true fuel) h.opened
  have hrooted := (Store.Path.sound (hsafe h.reached.ready).path h.reached.sound).rooted
  rw [hrun] at hend
  revert hend hrooted
  generalize Script.evaluate (Action.applyVetted true fuel) outermost entries none t = outcome
  intro hend hrooted
  cases hend with
  | interruption follows => exact follows.fine.orderly.not_strayed
  | strayed _ hvetted =>
    obtain ⟨t', rfl, hdangling⟩ := hvetted rfl
    exact absurd hrooted hdangling

/-- Recording the statements of a source. -/
theorem Faithful.runEntries (h : Faithful strict w t) (fuel : Nat) (entries : List ScriptEntry) :
    let seen := recordEntries strict fuel entries w
    let outcome := Script.evaluate (Action.apply fuel) outermost entries none t
    ending seen = ending outcome ∧ Follows strict w (notedAfter seen) (storeAfter outcome) := by
  have htracked : Tracks strict false [] (recordEntries strict fuel entries)
      (Script.evaluate (Action.apply fuel) outermost entries none) :=
    Action.applyVetted_false fuel ▸ recordEntries_tracks fuel entries
  have hend := htracked w t h.fine h.mirrors (List.forall_mem_nil _)
  have hgiven := fun e w' => @Faithful.not_strayed strict w t h fuel entries e w'
  revert hend hgiven
  generalize recordEntries strict fuel entries w = seen
  generalize Script.evaluate (Action.apply fuel) outermost entries none t = outcome
  intro hend hgiven
  cases hend with
  | value follows => exact ⟨rfl, follows⟩
  | interruption follows => exact ⟨rfl, follows⟩
  | strayed hmem => exact absurd hmem (hgiven _ _ rfl)

/-- **Recording a source is faithful.** -/
theorem Faithful.runSource (h : Faithful strict w t) (source : String) :
    let seen := Recorded.runSource strict source outermost w
    let outcome := Abacus.runSource source outermost t
    ending seen = ending outcome ∧ Faithful strict (notedAfter seen) (storeAfter outcome) := by
  have hpath : t.Path (fun _ => True) (storeAfter (Abacus.runSource source outermost t)) :=
    h.reached.ready.path_runSource h.opened source
  have hreached : (storeAfter (Abacus.runSource source outermost t)).Reached :=
    Relation.ReflTransGen.trans h.reached hpath
  obtain ⟨hending, follows⟩ := h.runEntries Action.plenty (Script.read source.toList .start).entries
  revert hending follows hreached
  unfold Recorded.runSource Probed.runSource Probed.runScript Abacus.runSource Script.run
    recordEntries
  generalize Probed.runEntries _ _ _ _ _ w = seen
  generalize Script.evaluate _ _ _ _ t = outcome
  intro hreached hending follows
  cases seen with
  | error e w' =>
    cases outcome with
    | error e' t' =>
      cases hending
      exact ⟨rfl, h.follows follows hreached⟩
    | ok value t' => cases hending
  | ok value w' =>
    cases outcome with
    | error e t' => cases hending
    | ok value' t' =>
      cases hending
      -- the statements have run: there may still be one that could not be read
      cases hfault : (Script.read source.toList .start).fault with
      | none =>
        rw [hfault] at hreached
        exact ⟨rfl, h.follows follows hreached⟩
      | some e =>
        rw [hfault] at hreached
        exact ⟨rfl, h.follows follows hreached⟩

/-- Nothing has been noted at the beginning, and there is nothing that could have been. -/
theorem faithful_initial (strict : Bool) : Faithful strict ⟨initial.2, [], []⟩ initial.2 where
  fine :=
    { orderly := .nil
      born := List.forall_mem_nil _
      accounts := fun id h => absurd (Store.exists_of_applies h) (Nat.not_lt_zero _)
      rooted := fun q h => absurd h (Nat.not_lt_zero _)
      linked := fun id q h => by
        rw [Store.source_of_le (Nat.zero_le _)] at h
        cases h
      attuned := fun q => Store.attuned_of_le (Nat.zero_le _)
      running := List.forall_mem_nil _ }
  mirrors := .refl _
  reached := .refl
  settled := rfl
  free id := by rw [Store.source_of_le (Nat.zero_le _)]

/-- **Recording source after source is faithful.** -/
theorem faithful_afterSources (strict : Bool) (sources : List String) :
    Faithful strict (afterSources strict initial.2 outermost sources)
      (initial.2.afterSources outermost sources) := by
  have hall : ∀ {w t}, Faithful strict w t →
      Faithful strict
        (sources.foldl (fun w source => notedAfter (runSource strict source outermost w)) w)
        (sources.foldl (fun s source => storeAfter (Abacus.runSource source outermost s)) t) := by
    induction sources with
    | nil => exact id
    | cons source rest ih => exact fun h => ih (h.runSource source).2
  exact hall (faithful_initial strict)

end Recorded

end Abacus
