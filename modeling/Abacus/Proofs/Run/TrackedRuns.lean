import Abacus.Proofs.Run.Compared
import Abacus.Proofs.Sequence.TrackedReads

/-!
# Tracking runs

Most of what programs do has nothing to do with sequences, and nothing of it is noted. A sequence that
is built over a generator that calls no function is there in both stores afterwards, as it is in both
when it shares the source of another one; a generator that calls a function is noted with how it is
built. Where a sequence is asked while the function of its source is running, it refuses; so a run that
does not even ask it is tracked as well. And where a built-in function is given a sequence that is not
there, a vetted call gives up as the recorded one does.

**The law** (`Recorded.through_tracking`): tracking goes through programs.
-/

namespace Abacus

namespace Recorded

open Abacus.Action (Blind Obeys Whatever)
open Entry (Lawful)
open Probed (idle quiet quiet_bind sequencesOf)

variable {strict vetted : Bool} {there : List SequenceId}

/-! ## Actions of which nothing is noted -/

/-- Of an action nothing has to be noted. -/
def Plain {α : Type} (strict vetted : Bool) (there : List SequenceId) (x : Action α) : Prop :=
  Tracks strict vetted there (quiet x) x

namespace Plain

variable {α β : Type}

/-- Where nothing has to be noted of the parts, nothing has to be noted of the whole. -/
theorem bind {x : Action α} {f : α → Action β} (h : Plain strict vetted there x)
    (hf : ∀ a, Plain strict vetted there (f a)) : Plain strict vetted there (x >>= f) := by
  rw [Plain, quiet_bind]
  exact Tracks.bind h (Action.obeys_any x) fun {a} _ => hf a

/-- What is blind to sequences may come before. -/
theorem after {x : Action α} {f : α → Action β} (h : Blind x)
    (hf : ∀ a, Plain strict vetted there (f a)) : Plain strict vetted there (x >>= f) :=
  bind (Tracks.quiet h) hf

end Plain

/-! ## Building sequences -/

/-- A sequence that is built over a generator. What is noted with it is about its source. -/
theorem create_tracked {w : Noted} {t : Store} {g : Generator} (new : List Entry) (position : Position)
    (fine : Fine w) (mirrors : Mirrors strict w.store t) (hlinked : w.store.Has g.references)
    (hnew : ∀ e ∈ new, e.about? = some ⟨w.store.sources.size⟩)
    (orderly : Entry.Orderly (w.entries ++ new))
    (haccounts : g.applies = true → Accounts (w.entries ++ new) ⟨w.store.sources.size⟩ g) :
    Tracked strict vetted w
      (quiet (Sequence.create g position) { w with entries := w.entries ++ new })
      (Sequence.create g position t) := by
  have fine' := fine.addSource g hnew orderly haccounts hlinked
  let w' : Noted := { w with store := (w.store.addSource g).2, entries := w.entries ++ new }
  let q : Sequence := ⟨⟨w.store.sources.size⟩, [], none, position⟩
  have hcreate : Sequence.create g position t =
      .ok (.sequence ⟨w.store.sequences.size⟩) ((t.addSource g).2.addSequence q).2 := by
    rw [← mirrors.size]
    show EStateM.Result.ok _ ((t.addSource g).2.addSequence ⟨⟨t.sources.size⟩, [], none, position⟩).2 = _
    rw [mirrors.sources_eq]
    rfl
  rw [hcreate]
  have hlt : q.source.index < w'.store.sources.size := by
    simp only [w', q, Store.addSource, Array.size_push]
    exact Nat.lt_succ_self _
  exact .value ⟨(Goes.addSource g hnew).trans (Goes.addSequence (w := w') q), rfl,
    fine'.addSequence hlt rfl, (mirrors.addSource fine.rooted g).addSequence q⟩

/-- Of a sequence over a generator that calls no function nothing has to be noted. -/
theorem Plain.create {g : Generator} (position : Position) (happlies : g.applies = false)
    (hthere : ∀ q ∈ g.references, q ∈ there) :
    Plain strict vetted there (Sequence.create g position) := by
  intro w t fine mirrors has
  have h : Tracked strict vetted w _ _ :=
    create_tracked [] position fine mirrors (fun q hq => has q (hthere q hq)) (List.forall_mem_nil _)
      (by rw [List.append_nil]; exact fine.orderly) fun h =>
        absurd (happlies.symm.trans h) Bool.false_ne_true
  rwa [List.append_nil] at h

/-- A generator that calls a function is noted with how it is built. -/
theorem build_tracks (origin : Origin) (position : Position) :
    Tracks strict vetted there (Probed.build (probe strict) origin position)
      (Sequence.create (origin.generator [] origin.seeds.head?) position) := by
  intro w t fine mirrors has
  have hsilent : Entry.Silent ⟨w.store.sources.size⟩ w.entries := fun e he habout =>
    Nat.lt_irrefl _ (fine.born e he _ habout)
  refine create_tracked [.built ⟨w.store.sources.size⟩ origin] position fine mirrors ?_ ?_ ?_ ?_
  · cases origin <;> exact List.forall_mem_nil _
  · intro e he
    rw [List.mem_singleton.mp he]
    rfl
  · exact .snoc fine.orderly hsilent
  · intro _
    refine ⟨origin, origin.seeds.head?, List.mem_append_right _ (List.mem_singleton_self _), ?_, ?_⟩
    · rw [Entry.consumedOf_append, hsilent.consumedOf_eq]
      rfl
    · rw [Entry.consumedOf_append, Entry.results_append, hsilent.consumedOf_eq, hsilent.results_eq]
      cases origin <;> rfl

/-- Of a sequence that shares the source of another one nothing has to be noted. -/
theorem Plain.derive {id : SequenceId} (hid : id ∈ there) (transformer : Transformer) :
    Plain strict vetted there (Sequence.derive id transformer) := by
  intro w t fine mirrors has
  let q : Sequence := ⟨(w.store.sequence id).source, (w.store.sequence id).transformers ++ [transformer],
    none, (w.store.sequence id).position⟩
  have hderive : Sequence.derive id transformer t =
      .ok (.sequence ⟨w.store.sequences.size⟩) (t.addSequence q).2 := by
    rw [Sequence.derive, Action.view_bind, mirrors.sourceOf_eq, mirrors.transformers_eq,
      mirrors.position_eq, ← mirrors.size]
    rfl
  rw [hderive]
  exact .value ⟨.addSequence q, rfl, fine.addSequence (fine.rooted id (has id hid)) rfl,
    mirrors.addSequence q⟩

namespace Plain

variable {owner : String} {position : Position}

theorem newRange (bounds : List Value) :
    Plain strict vetted there (Native.newRange position bounds) := by
  have hmake : ∀ start stop step : Number,
      Plain strict vetted there (Native.newRange.make position start stop step) := by
    intro start stop step
    unfold Native.newRange.make Generator.ofRange
    by_cases hzero : step.isZero
    · rw [if_pos hzero]
      exact Tracks.throw _
    · rw [if_neg hzero]
      exact create position rfl (List.forall_mem_nil _)
  refine after (Blind.mapM (fun bound => ?_) bounds) fun numbers => ?_
  · refine (Blind.expectNumber bound).bind fun n => ?_
    cases n with
    | complex z => exact .refuse
    | _ => exact .pure _
  · split
    · exact hmake _ _ _
    · exact hmake _ _ _
    · exact Tracks.throw _

theorem toSequence {value : Value} :
    Plain strict vetted there (Native.toSequence owner position value) := by
  cases value with
  | sequence id => exact Tracks.pure _
  | vector id => exact create position rfl (List.forall_mem_nil _)
  | _ => exact Tracks.quiet .refuse

end Plain

/-- What is made of a value to read from is a sequence that is there. -/
theorem toSequence_ok {owner : String} {position : Position} {value a : Value} {w w' : Noted}
    (has : w.store.Has (sequencesOf [value]))
    (h : (quiet (Native.toSequence owner position value) : Recorded Value) w = .ok a w') :
    ∃ id, a = .sequence id ∧ id.index < w'.store.sequences.size := by
  cases value with
  | sequence id =>
    cases h
    exact ⟨id, rfl, has id (List.mem_singleton_self id)⟩
  | vector id =>
    cases h
    refine ⟨_, rfl, ?_⟩
    simp only [Carries.store, Carries.put, Store.addSequence, Array.size_push]
    exact Nat.lt_succ_self _
  | _ => cases h

/-- Both sequences of a pair are there when it is built. -/
theorem Plain.newZip {position : Position} {left right : Value}
    (hthere : ∀ q ∈ sequencesOf [left, right], q ∈ there) :
    Plain strict vetted there (Native.newZip position left right) := by
  intro w t fine mirrors has
  have hside : ∀ v ∈ [left, right], w.store.Has (sequencesOf [v]) := by
    intro v hv q hq
    refine has q (hthere q ?_)
    obtain ⟨u, hu, hsequence⟩ := List.mem_filterMap.mp hq
    exact List.mem_filterMap.mpr ⟨u, List.mem_singleton.mp hu ▸ hv, hsequence⟩
  rw [Native.newZip, quiet_bind]
  refine (toSequence w t fine mirrors has).bind fun a w₁ t₁ ha _ follows₁ => ?_
  obtain ⟨a, rfl, hlt⟩ := toSequence_ok (hside left List.mem_cons_self) ha
  rw [quiet_bind]
  refine (toSequence w₁ t₁ follows₁.fine follows₁.mirrors (follows₁.goes.has has)).bind
    fun b w₂ t₂ hb _ follows₂ => ?_
  have hright := follows₁.goes.has (hside right (List.mem_cons_of_mem _ (List.mem_singleton_self right)))
  obtain ⟨b, rfl, hlt'⟩ := toSequence_ok hright hb
  have hcreate : Plain strict vetted [a, b] (Sequence.create (.zip a b) position) :=
    create position rfl fun _ hq => hq
  refine hcreate w₂ t₂ follows₂.fine follows₂.mirrors fun q hq => ?_
  rcases List.mem_cons.mp hq with rfl | hq
  · exact Nat.lt_of_lt_of_le hlt follows₂.goes.size_sequences
  · rwa [List.mem_singleton.mp hq]

/-! ## Built-in functions -/

/-- **Of a built-in function that builds no generator that calls a function, and that neither calls
one itself nor reads a sequence, nothing has to be noted.** -/
theorem run_plain {native : Native} {position : Position} {arguments : List Value}
    (h : Comparison.notable native arguments = false) (hthere : ∀ q ∈ sequencesOf arguments, q ∈ there) :
    Plain strict vetted there (native.run idle position arguments) := by
  unfold Native.run
  split
  case h_1 =>
    exact Tracks.quiet ((Blind.expectNumber _).bind fun _ =>
      (Blind.ofNumeric _ _).bind fun _ => .pure _)
  case h_2 | h_3 => exact Tracks.quiet (.logarithm _ _)
  case h_4 | h_5 =>
    exact Tracks.quiet ((Blind.expectNumber _).bind fun _ => (Blind.extremum _ _ _).bind fun _ => .pure _)
  case h_6 | h_7 => exact Tracks.quiet (.pure _)
  case h_8 => exact Tracks.quiet .refuse
  case h_9 =>
    exact Tracks.quiet ((Blind.expectVector _).bind fun _ =>
      (Blind.view fun _ _ => rfl).bind fun _ => .pure _)
  case h_10 x index => exact Tracks.quiet (.element x index)
  case h_11 => exact Tracks.quiet (.setElement _ _ _)
  case h_12 => exact Tracks.quiet ((Blind.expectCount _).bind fun _ => .newVector _)
  case h_13 | h_14 | h_15 | h_28 | h_29 | h_34 => cases h
  case h_16 => exact Plain.newRange _
  case h_17 => exact Plain.toSequence
  case h_18 x f =>
    refine Plain.after (.expectCallable f) fun _ => ?_
    cases x with
    | vector id => cases h
    | sequence id => exact Plain.derive (hthere id (List.mem_cons_self ..)) _
    | _ => exact Tracks.quiet .refuse
  case h_19 x f =>
    refine Plain.after (.expectCallable f) fun _ => ?_
    cases x with
    | vector id => cases h
    | sequence id => exact Plain.derive (hthere id (List.mem_cons_self ..)) _
    | _ => exact Tracks.quiet .refuse
  case h_20 x seed f =>
    refine Plain.after (.expectCallable f) fun _ => ?_
    cases x with
    | vector id | sequence id => cases h
    | _ => exact Tracks.quiet .refuse
  case h_21 x count =>
    refine Plain.after (.expectCount count) fun n => ?_
    cases x with
    | vector id => exact Tracks.quiet ((Blind.items id).bind fun _ => .newVector _)
    | sequence id =>
      refine Plain.create position rfl fun q hq => hthere q ?_
      rw [List.mem_singleton.mp hq]
      exact List.mem_cons_self ..
    | _ => exact Tracks.quiet .refuse
  case h_22 x count =>
    refine Plain.after (.expectCount count) fun n => ?_
    cases x with
    | vector id => exact Tracks.quiet ((Blind.items id).bind fun _ => .newVector _)
    | sequence id => cases h
    | _ => exact Tracks.quiet .refuse
  case h_23 => exact Plain.newZip hthere
  case h_24 x =>
    cases x with
    | vector id => exact Tracks.quiet (.pure _)
    | sequence id => cases h
    | _ => exact Tracks.quiet (.fail _ _)
  case h_25 x | h_26 x | h_27 x =>
    cases x with
    | sequence id => cases h
    | _ => exact Tracks.quiet (.fail _ _)
  case h_30 x =>
    split
    · exact Tracks.quiet (.pure _)
    · exact Tracks.quiet ((Blind.text _).bind fun _ => .fail _ _)
  case h_31 x y =>
    refine Plain.after (.equal x y) fun same => ?_
    split
    · exact Tracks.quiet (.pure _)
    · exact Tracks.quiet ((Blind.text x).bind fun _ => (Blind.text y).bind fun _ => .fail _ _)
  case h_32 => exact Tracks.quiet (@Blind.print position _ _)
  case h_33 x =>
    refine Tracks.quiet ((Blind.asciiText x).bind fun line => .bind ?_ fun _ => .pure x)
    exact .modify (fun _ => rfl) (fun _ => rfl) fun _ _ => rfl
  case h_35 => exact Tracks.quiet (.throw nofun)

/-- Nor of a call of `exit`. -/
theorem exit_plain (position : Position) (arguments : List Value) :
    Plain strict vetted there (Native.run idle position .exit arguments) := by
  rcases Blind.exit_cases position arguments with ⟨code, -, hexit⟩ | hblind
  · rw [hexit]
    exact Tracks.throw _
  · exact Tracks.quiet hblind

/-! ## Asking -/

/-- Whether a sequence is asked that refuses makes no difference. -/
theorem Mirrors.refused {s t t' : Store} {id : SequenceId} (mirrors : Mirrors true s t)
    (h : t' = t ∨ t.Outdated id ∧ t' = t.setPending id none) : Mirrors true s t' := by
  rcases h with rfl | ⟨⟨stamp, v, hpending, hlt⟩, rfl⟩
  · exact mirrors
  · rcases mirrors.sequence id with hsame | ⟨-, -, hsame⟩
    · rw [hsame] at hpending hlt
      rw [mirrors.source_eq] at hlt
      exact mirrors.outdate ⟨stamp, v, hpending, hlt⟩
    · rw [hsame] at hpending
      cases hpending

/-- What a sequence has looked ahead to holds good in both stores, or in none. -/
theorem Mirrors.attuned {s t : Store} {id : SequenceId} (mirrors : Mirrors strict s t)
    (attuned : s.Attuned id) : t.Attuned id := by
  intro stamp v hpending
  rw [mirrors.sourceOf_eq, mirrors.source_eq]
  rcases mirrors.sequence id with hsame | ⟨-, -, hsame⟩
  · rw [hsame] at hpending
    exact attuned stamp v hpending
  · rw [hsame] at hpending
    cases hpending

/-- **Asking a sequence is tracked**, if asking it refuses while the function of its source is
running. -/
theorem asking_tracks {id : SequenceId} {rounds : Nat} {x : Recorded Value} {y : Action Value}
    (h : Tracks strict vetted there x y) (hrefuses : Sequence.Refuses rounds id y) :
    Tracks strict vetted there (asking strict rounds id x) y := by
  intro w t fine mirrors has
  show Tracked strict vetted w ((if (w.store.sequence id).source ∈ w.running ∧ rounds ≠ 0 then
    if strict then quiet (Action.fail .reentrantSequence (w.store.sequence id).position)
    else noting (fun w' => .reentered (w.store.sequence id).position
      (w.store.source (w.store.sequence id).source) (w'.store.source (w.store.sequence id).source)) x
    else x) w) (y t)
  by_cases hrunning : (w.store.sequence id).source ∈ w.running ∧ rounds ≠ 0
  · rw [if_pos hrunning]
    have running := fine.running _ hrunning.1
    obtain ⟨t', ht', hsame⟩ := hrefuses hrunning.2 (mirrors.attuned (fine.attuned id))
      (by rw [Store.Running, mirrors.sourceOf_eq, mirrors.source_eq]; exact running)
    rw [mirrors.position_eq] at ht'
    cases strict with
    | true =>
      rw [ht']
      exact .interruption ⟨.refl w, rfl, fine, mirrors.refused hsame⟩
    | false =>
      have hx := h w t fine mirrors has
      rw [ht'] at hx ⊢
      simp only [Bool.false_eq_true, if_false, noting]
      revert hx
      generalize x w = seen
      intro hx
      cases hx with
      | @interruption e w' _ follows =>
        have hlawful : Lawful w'.entries (.reentered (w.store.sequence id).position
            (w.store.source (w.store.sequence id).source) _
            (.error (.fault ⟨.reentrantSequence, (w.store.sequence id).position⟩))) :=
          ⟨rfl, follows.goes.busy _ running.1⟩
        exact .interruption ⟨follows.goes.trans (.note rfl), follows.running,
          follows.fine.note rfl hlawful, follows.mirrors⟩
      | strayed hmem hvetted =>
        refine .strayed (List.mem_append_left _ hmem) fun h => ?_
        obtain ⟨_, hout, -⟩ := hvetted h
        cases hout
  · rw [if_neg hrunning]
    exact h w t fine mirrors has

/-! ## Vetting -/

theorem vet_apply (arguments : List Value) (w : Noted) :
    vet arguments w = if ∃ id ∈ sequencesOf arguments, w.store.sequences.size ≤ id.index then
      .error .misapplied { w with entries := w.entries ++ [.strayed] }
    else .ok () w := by
  show (if _ then (_ : Recorded Unit) else _) w = _
  split <;> rfl

/-- A store has a sequence then over a source that is not there. -/
theorem not_rooted_dangling (s : Store) :
    ¬ (s.addSequence ⟨⟨s.sources.size⟩, [], none, .start⟩).2.Rooted := by
  intro h
  have hlt := h ⟨s.sequences.size⟩ (by simp [Store.addSequence])
  rw [Store.sequence_addSequence_new] at hlt
  exact Nat.lt_irrefl _ hlt

/-- What comes after the sequences among the arguments have been found there may rely on that. -/
theorem vet_tracks {arguments : List Value} {x : Recorded Value} {y : Action Value}
    (h : Tracks strict vetted (sequencesOf arguments) x y) :
    Tracks strict vetted there
      (do
        vet arguments
        x)
      (do
        if vetted then Action.vet (sequencesOf arguments)
        y) := by
  intro w t fine mirrors _
  have hseen := vet_apply arguments w
  have hvet : Action.vet (sequencesOf arguments) t = if ∃ id ∈ sequencesOf arguments,
      w.store.sequences.size ≤ id.index then
        .error .misapplied (t.addSequence ⟨⟨t.sources.size⟩, [], none, .start⟩).2
      else .ok () t := by
    rw [Action.vet, mirrors.size]
  by_cases hmissing : ∃ id ∈ sequencesOf arguments, w.store.sequences.size ≤ id.index
  · rw [if_pos hmissing] at hseen hvet
    rw [bind_error hseen]
    refine .strayed (List.mem_append_right _ (List.mem_singleton_self _)) fun hvetted => ?_
    rw [hvetted, if_pos rfl, Action.bind_error hvet]
    exact ⟨_, rfl, not_rooted_dangling t⟩
  · rw [if_neg hmissing] at hseen hvet
    have has : w.store.Has (sequencesOf arguments) := fun q hq =>
      Nat.lt_of_not_le fun hle => hmissing ⟨q, hq, hle⟩
    rw [bind_ok hseen]
    cases vetted with
    | true =>
      rw [if_pos rfl, Action.bind_ok hvet]
      exact h w t fine mirrors has
    | false => exact h w t fine mirrors has

/-! ## Programs -/

/-- **Tracking goes through programs.** -/
theorem through_tracking : (tracking strict vetted).Through (probe strict) vetted where
  expression _ := (tracking strict vetted).harmless_pure
  valueless _ := (tracking strict vetted).harmless_pure
  calling := (tracking strict vetted).harmless_pure
  entering _ _ := (tracking strict vetted).harmless_pure
  vets _ := trivial
  vetting h := vet_tracks h
  exiting := vet_tracks (exit_plain _ _)
  natives hnotable hthere := run_plain hnotable hthere
  building := build_tracks _ _
  asking h hrefuses := asking_tracks h hrefuses
  forget := .forget
  lookahead fuel hcall hreader hid := lookahead_tracks hcall hreader fuel hid
  advance id hcall hreader := advance_tracks hcall hreader id

end Recorded

end Abacus
