import Abacus.Proofs.Run.Generators
import Abacus.Proofs.Sequence.Following

/-!
# Tracking actions

A recorded run tracks an action if it ends as the action does, in a store that mirrors the one that
the action leaves, and if it keeps record and store together. A store mirrors another one if they
differ at most in that what a sequence has looked ahead to, and what does not hold good any more, is
still there in one of them. That makes no difference, and for a run that is not strict there is none.

**The law** (`Recorded.Tracks.bind`): what is made of actions that are tracked is tracked. So to track
actions is to compare with them (`Recorded.tracking`).
-/

namespace Abacus

namespace Recorded

open Probed (quiet)
open Abacus.Action (Blind Obeys Whatever)

/-! ## Mirrored stores -/

/-- The second store is the first, but for outdated lookaheads that only the first one still has. -/
structure Mirrors (strict : Bool) (s t : Store) : Prop where
  rest : t = { s with sequences := t.sequences }
  size : t.sequences.size = s.sequences.size
  sequence : ∀ q : SequenceId, t.sequence q = s.sequence q ∨
    strict = true ∧ s.Outdated q ∧ t.sequence q = { s.sequence q with pending := none }

namespace Mirrors

variable {strict : Bool} {s t : Store}

protected theorem refl (s : Store) : Mirrors strict s s := ⟨rfl, rfl, fun _ => .inl rfl⟩

theorem sources_eq (h : Mirrors strict s t) : t.sources = s.sources := by
  rw [h.rest]

theorem source_eq (h : Mirrors strict s t) (id : SourceId) : t.source id = s.source id :=
  Store.source_congr h.sources_eq

/-- The sequences themselves are the same. -/
theorem built (h : Mirrors strict s t) (q : SequenceId) :
    t.sequence q = { s.sequence q with pending := (t.sequence q).pending } := by
  rcases h.sequence q with hsame | ⟨-, -, hsame⟩ <;> rw [hsame]

theorem sourceOf_eq (h : Mirrors strict s t) (q : SequenceId) :
    (t.sequence q).source = (s.sequence q).source := by
  rw [h.built q]

theorem position_eq (h : Mirrors strict s t) (q : SequenceId) :
    (t.sequence q).position = (s.sequence q).position := by
  rw [h.built q]

theorem transformers_eq (h : Mirrors strict s t) (q : SequenceId) :
    (t.sequence q).transformers = (s.sequence q).transformers := by
  rw [h.built q]

/-- Stores that mirror each other strictly are the same. -/
theorem eq (h : Mirrors false s t) : t = s := by
  have hsequences : t.sequences = s.sequences := by
    refine Array.ext h.size fun i hi hi' => ?_
    have hsame := (h.sequence ⟨i⟩).resolve_right fun hstrict => Bool.false_ne_true hstrict.1
    simpa [Store.sequence, Array.getD, hi, hi'] using hsame
  rw [h.rest, hsequences]

/-- The same change of a source, from which nothing that is consumed comes back. -/
theorem modifySource (h : Mirrors strict s t) (id : SourceId) {f : Source → Source}
    (hf : ∀ source, source.advanced ≤ (f source).advanced) :
    Mirrors strict (s.modifySource id f) (t.modifySource id f) where
  rest := by
    rw [h.rest]
    rfl
  size := h.size
  sequence q := by
    rcases h.sequence q with hsame | ⟨hstrict, ⟨stamp, v, hpending, hlt⟩, hsame⟩
    · exact .inl hsame
    · refine .inr ⟨hstrict, ⟨stamp, v, hpending, ?_⟩, hsame⟩
      simp only [Store.sequence_modifySource]
      rcases Store.source_modifySource_cases s id f (s.sequence q).source with hsource | ⟨hid, -, hsource⟩
      · rw [hsource]
        exact hlt
      · rw [hsource, ← hid]
        exact Nat.lt_of_lt_of_le hlt (hf _)

theorem setPending (h : Mirrors strict s t) (q : SequenceId) (pending : Option (Nat × Value)) :
    Mirrors strict (s.setPending q pending) (t.setPending q pending) where
  rest := by
    rw [h.rest]
    rfl
  size := by rw [Store.size_sequences_setPending, Store.size_sequences_setPending, h.size]
  sequence other := by
    by_cases hother : other = q
    · subst hother
      by_cases hlt : other.index < s.sequences.size
      · refine .inl ?_
        rw [Store.sequence_setPending_self hlt, Store.sequence_setPending_self (h.size ▸ hlt), h.built]
      · refine .inl ?_
        have hle := Nat.le_of_not_lt hlt
        rw [Store.sequence_of_le (by rw [Store.size_sequences_setPending, h.size]; exact hle),
          Store.sequence_of_le (by rw [Store.size_sequences_setPending]; exact hle)]
    · rw [Store.Outdated, Store.sequence_setPending_of_ne hother, Store.sequence_setPending_of_ne hother]
      exact h.sequence other

/-- A lookahead is dropped from the first store that the second one does not have. -/
theorem drop (h : Mirrors strict s t) {q : SequenceId} (hnone : (t.sequence q).pending = none) :
    Mirrors strict (s.setPending q none) t where
  rest := by
    rw [h.rest]
    rfl
  size := by rw [Store.size_sequences_setPending, h.size]
  sequence other := by
    by_cases hother : other = q
    · subst hother
      refine .inl ?_
      by_cases hlt : other.index < s.sequences.size
      · rw [Store.sequence_setPending_self hlt, h.built, hnone]
      · have hle := Nat.le_of_not_lt hlt
        rw [Store.sequence_of_le (by rw [h.size]; exact hle),
          Store.sequence_of_le (by rw [Store.size_sequences_setPending]; exact hle)]
    · rw [Store.Outdated, Store.sequence_setPending_of_ne hother]
      exact h.sequence other

/-- An outdated lookahead is dropped from the second store only. -/
theorem outdate (h : Mirrors true s t) {q : SequenceId} (houtdated : s.Outdated q) :
    Mirrors true s (t.setPending q none) where
  rest := by
    rw [h.rest]
    rfl
  size := by rw [Store.size_sequences_setPending, h.size]
  sequence other := by
    by_cases hother : other = q
    · subst hother
      by_cases hlt : other.index < t.sequences.size
      · refine .inr ⟨rfl, houtdated, ?_⟩
        rw [Store.sequence_setPending_self hlt, h.built]
      · obtain ⟨stamp, v, hpending, -⟩ := houtdated
        rw [Store.sequence_of_le (h.size ▸ Nat.le_of_not_lt hlt)] at hpending
        cases hpending
    · rw [Store.sequence_setPending_of_ne hother]
      exact h.sequence other

theorem addSource (h : Mirrors strict s t) (rooted : s.Rooted) (g : Generator) :
    Mirrors strict (s.addSource g).2 (t.addSource g).2 where
  rest := by
    rw [h.rest]
    rfl
  size := h.size
  sequence q := by
    rcases h.sequence q with hsame | ⟨hstrict, ⟨stamp, v, hpending, hlt⟩, hsame⟩
    · exact .inl hsame
    · have hq : q.index < s.sequences.size := by
        refine Nat.lt_of_not_le fun hle => ?_
        rw [Store.sequence_of_le hle] at hpending
        cases hpending
      refine .inr ⟨hstrict, ⟨stamp, v, hpending, ?_⟩, hsame⟩
      exact (Store.source_addSource_of_lt g (rooted q hq)).symm ▸ hlt

theorem addSequence (h : Mirrors strict s t) (q : Sequence) :
    Mirrors strict (s.addSequence q).2 (t.addSequence q).2 where
  rest := by
    rw [h.rest]
    rfl
  size := by simp only [Store.addSequence, Array.size_push, h.size]
  sequence other := by
    by_cases hlt : other.index < s.sequences.size
    · rw [Store.Outdated, Store.sequence_addSequence_of_lt q hlt,
        Store.sequence_addSequence_of_lt q (h.size.symm ▸ hlt)]
      exact h.sequence other
    · refine .inl ?_
      by_cases heq : other = ⟨s.sequences.size⟩
      · rw [heq, Store.sequence_addSequence_new, ← h.size, Store.sequence_addSequence_new]
      · have hne : other.index ≠ s.sequences.size := fun h => heq (by cases other; exact congrArg _ h)
        have hle : s.sequences.size + 1 ≤ other.index := by omega
        rw [Store.sequence_of_le (by simpa [Store.addSequence, h.size] using hle),
          Store.sequence_of_le (by simpa [Store.addSequence] using hle)]

end Mirrors

/-! ## Steps -/

section Steps

variable {α β : Type} {w w' : Noted}

/-- A quiet action notes nothing. -/
theorem quiet_apply (x : Action α) (w : Noted) :
    (quiet x : Recorded α) w = match x w.store with
      | .ok a s => .ok a { w with store := s }
      | .error e s => .error e { w with store := s } := rfl

@[simp] theorem quiet_view_bind (f : Store → α) (g : α → Recorded β) :
    (quiet (Action.view f) >>= g) w = g (f w.store) w := rfl

theorem bind_ok {x : Recorded α} {a : α} (h : x w = .ok a w') (f : α → Recorded β) :
    (x >>= f) w = f a w' := by
  show EStateM.bind x f w = _
  simp only [EStateM.bind, h]

theorem bind_error {x : Recorded α} {e : Interruption} (h : x w = .error e w') (f : α → Recorded β) :
    (x >>= f) w = .error e w' := by
  show EStateM.bind x f w = _
  simp only [EStateM.bind, h]

end Steps

/-! ## Tracking -/

/-- Between two moments of a recorded run, of which the second mirrors a store. -/
structure Follows (strict : Bool) (w w' : Noted) (t' : Store) : Prop where
  goes : Goes w w'
  running : w'.running = w.running
  fine : Fine w'
  mirrors : Mirrors strict w'.store t'

theorem Follows.refl {strict : Bool} {w : Noted} {t : Store} (fine : Fine w)
    (mirrors : Mirrors strict w.store t) : Follows strict w w t :=
  ⟨.refl w, rfl, fine, mirrors⟩

theorem Follows.trans {strict : Bool} {w w' w'' : Noted} {t' t'' : Store}
    (h : Follows strict w w' t') (h' : Follows strict w' w'' t'') : Follows strict w w'' t'' :=
  ⟨h.goes.trans h'.goes, h'.running.trans h.running, h'.fine, h'.mirrors⟩

/-- The recorded outcome is the outcome, in a store that mirrors it; unless the recorded run was given
up. If that is to be `vetted`, the run was given up, too, with a sequence in the store that is over a
source that is not there. -/
inductive Tracked {α : Type} (strict vetted : Bool) (w : Noted) :
    EStateM.Result Interruption Noted α → EStateM.Result Interruption Store α → Prop
  | value {a : α} {w' : Noted} {t' : Store} : Follows strict w w' t' →
    Tracked strict vetted w (.ok a w') (.ok a t')
  | interruption {e : Interruption} {w' : Noted} {t' : Store} : Follows strict w w' t' →
    Tracked strict vetted w (.error e w') (.error e t')
  | strayed {w' : Noted} {outcome : EStateM.Result Interruption Store α} : .strayed ∈ w'.entries →
    (vetted = true → ∃ t', outcome = .error .misapplied t' ∧ ¬ t'.Rooted) →
    Tracked strict vetted w (.error .misapplied w') outcome

/-- The recorded run tracks the action wherever these sequences are there. -/
def Tracks {α : Type} (strict vetted : Bool) (there : List SequenceId) (x : Recorded α) (y : Action α) :
    Prop :=
  ∀ (w : Noted) (t : Store), Fine w → Mirrors strict w.store t → w.store.Has there →
    Tracked strict vetted w (x w) (y t)

section Tracked

variable {α β : Type} {strict vetted : Bool} {w w' : Noted} {t t' : Store}

/-- What is tracked after a run was tracked is tracked from its beginning. -/
theorem Tracked.after {seen : EStateM.Result Interruption Noted α}
    {outcome : EStateM.Result Interruption Store α} (h : Tracked strict vetted w' seen outcome)
    (follows : Follows strict w w' t') : Tracked strict vetted w seen outcome := by
  cases h with
  | value h => exact .value (follows.trans h)
  | interruption h => exact .interruption (follows.trans h)
  | strayed hmem hvetted => exact .strayed hmem hvetted

/-- What is made of actions that are tracked from where they begin is tracked. -/
theorem Tracked.bind {x : Recorded α} {y : Action α} {f : α → Recorded β} {g : α → Action β}
    (h : Tracked strict vetted w (x w) (y t))
    (hf : ∀ a w' t', x w = .ok a w' → y t = .ok a t' → Follows strict w w' t' →
      Tracked strict vetted w' (f a w') (g a t')) :
    Tracked strict vetted w ((x >>= f) w) ((y >>= g) t) := by
  show Tracked strict vetted w (EStateM.bind x f w) (EStateM.bind y g t)
  unfold EStateM.bind
  generalize hseen : x w = seen at h
  generalize houtcome : y t = outcome at h
  cases h with
  | value follows => exact (hf _ _ _ hseen houtcome follows).after follows
  | interruption follows => exact .interruption follows
  | strayed hmem hvetted =>
    refine .strayed hmem fun h => ?_
    obtain ⟨t', rfl, hrooted⟩ := hvetted h
    exact ⟨t', rfl, hrooted⟩

end Tracked

namespace Tracks

variable {α β : Type} {strict vetted : Bool} {there : List SequenceId}

/-- **What is made of actions that are tracked is tracked.** -/
theorem bind {x : Recorded α} {y : Action α} {f : α → Recorded β} {g : α → Action β} {P : α → Prop}
    (h : Tracks strict vetted there x y) (hy : Obeys .any y P)
    (hf : ∀ {a}, P a → Tracks strict vetted there (f a) (g a)) :
    Tracks strict vetted there (x >>= f) (y >>= g) := fun w t fine mirrors hthere =>
  (h w t fine mirrors hthere).bind fun a w' t' _ ht follows => by
    have hgood := hy t t.under_any
    rw [ht] at hgood
    cases hgood with
    | value _ ha => exact hf ha w' t' follows.fine follows.mirrors (follows.goes.has hthere)

theorem pure (a : α) : Tracks strict vetted there (Pure.pure a) (Pure.pure a) :=
  fun _ _ fine mirrors _ => .value (.refl fine mirrors)

theorem throw (e : Interruption) :
    Tracks strict vetted there (MonadExcept.throw e : Recorded α) (MonadExcept.throw e) :=
  fun _ _ fine mirrors _ => .interruption (.refl fine mirrors)

/-- Of an action that is blind to sequences nothing is noted. -/
theorem quiet {x : Action α} (h : Blind x) : Tracks strict vetted there (Probed.quiet x) x := by
  intro w t fine mirrors hthere
  have hfollows : ∀ {s' : Store}, s'.sources = w.store.sources → s'.sequences = w.store.sequences →
      Follows strict w { w with store := s' } { s' with sequences := t.sequences } := by
    intro s' hsources hsequences
    refine ⟨.of_same hsources hsequences, rfl, fine.of_same hsources hsequences, rfl, ?_, fun q => ?_⟩
    · rw [hsequences]
      exact mirrors.size
    · rw [Store.Outdated, Store.sequence_congr hsequences, Store.source_congr hsources]
      exact mirrors.sequence q
  rw [mirrors.rest, quiet_apply]
  rcases h w.store t.sequences with ⟨a, s', hs, hsources, hsequences, ht⟩ |
    ⟨e, s', hs, -, hsources, hsequences, ht⟩
  · rw [hs, ht]
    exact .value (hfollows hsources hsequences)
  · rw [hs, ht]
    exact .interruption (hfollows hsources hsequences)

/-- A look at where a sequence was built. -/
theorem position (q : SequenceId) :
    Tracks strict vetted there (Probed.quiet (Action.view fun s => (s.sequence q).position))
      (Action.view fun s => (s.sequence q).position) := by
  intro w t fine mirrors hthere
  show Tracked strict vetted w (.ok (w.store.sequence q).position w) (.ok (t.sequence q).position t)
  rw [mirrors.position_eq]
  exact .value (.refl fine mirrors)

/-- What has been looked ahead to is forgotten. -/
theorem forget (id : SequenceId) :
    Tracks strict vetted there (Probed.quiet (modify (·.setPending id none) : Action PUnit))
      (modify (·.setPending id none) : Action PUnit) :=
  fun _ _ fine mirrors _ => .value ⟨.setPending id none, rfl,
    fine.setPending fun _ _ _ h => (nomatch h), mirrors.setPending id none⟩

/-- A fault is handled, and a run that was given up is not. -/
theorem recover {x : Recorded α} {y : Action α} {handler : Fault → Recorded α}
    {handler' : Fault → Action α} (h : Tracks strict vetted there x y)
    (hhandler : ∀ fault, Tracks strict vetted there (handler fault) (handler' fault)) :
    Tracks strict vetted there (Probed.recover x handler) (Action.recover y handler') := by
  intro w t fine mirrors hthere
  have hx := h w t fine mirrors hthere
  unfold Probed.recover Action.recover
  revert hx
  generalize x w = seen
  generalize y t = outcome
  intro hx
  cases hx with
  | value follows => exact .value follows
  | @interruption e w' t' follows =>
    cases e with
    | fault error =>
      exact (hhandler error.fault w' t' follows.fine follows.mirrors (follows.goes.has hthere)).after
        follows
    | _ => exact .interruption follows
  | strayed hmem hvetted =>
    refine .strayed hmem fun h => ?_
    obtain ⟨t', rfl, hrooted⟩ := hvetted h
    exact ⟨t', rfl, hrooted⟩

end Tracks

/-- To track actions is to compare with them. -/
def tracking (strict vetted : Bool) : Comparison Noted where
  discipline := .any
  place _ := trivial
  exits := trivial
  Ties there x y := Tracks strict vetted there x y
  pure := .pure
  throw _ := .throw _
  bind h hy hf := h.bind hy hf
  recover h _ hhandler := h.recover hhandler
  quiet hblind := .quiet hblind
  position := .position

end Recorded

end Abacus
