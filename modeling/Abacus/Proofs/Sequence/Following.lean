import Abacus.Proofs.Sequence.Ledger
import Abacus.Proofs.Sequence.Refusing

/-!
# What recorded runs keep

The record and the store belong together: what a generator that calls a function has become can be
told from the record, and so can be what it calls its function with next (`Recorded.Accounts`). What a
sequence has looked ahead to was found when no more had been consumed from its source than by now; and
as long as nothing has been consumed since, the generator knows its next element (`Store.Attuned`). So
while the generator makes a call, no sequence over its source can answer from what it has looked ahead
to.

What a run does with a source that is at work is nothing at all, neither in the store nor in the
record (`Recorded.Goes`).
-/

namespace Abacus

namespace Recorded

open Entry (consumedOf results Silent Lawful Orderly)

/-! ## Accounts -/

/-- The record tells how a generator was built that calls a function, what has been consumed from it,
and whether it knows its next element. -/
def Accounts (entries : List Entry) (id : SourceId) (g : Generator) : Prop :=
  ∃ origin known, .built id origin ∈ entries ∧
    g = origin.generator (consumedOf id entries) known ∧
    origin.seeds ++ results id entries = consumedOf id entries ++ known.toList

section Accounts

variable {entries new : List Entry} {id : SourceId} {g : Generator}

/-- What is noted, but no element that is found and none that is consumed, changes nothing. -/
theorem Accounts.extend (h : Accounts entries id g) (hconsumed : consumedOf id new = [])
    (hresults : results id new = []) : Accounts (entries ++ new) id g := by
  obtain ⟨origin, known, hbuilt, hg, hknown⟩ := h
  refine ⟨origin, known, List.mem_append_left new hbuilt, ?_, ?_⟩
  · rw [Entry.consumedOf_append, hconsumed, List.append_nil, hg]
  · rw [Entry.consumedOf_append, Entry.results_append, hconsumed, hresults, List.append_nil,
      List.append_nil, hknown]

theorem Accounts.append (h : Accounts entries id g) (hsilent : Silent id new) :
    Accounts (entries ++ new) id g :=
  h.extend hsilent.consumedOf_eq hsilent.results_eq

/-- A call that is due is made when all that is known has been consumed, and with what comes next. -/
theorem Accounts.due {f argument : Value} {position : Position} (h : Accounts entries id g)
    (hdue : g.due? = some (f, argument, position)) :
    ∃ origin, .built id origin ∈ entries ∧ f = origin.function ∧
      g = origin.generator (consumedOf id entries) none ∧
      consumedOf id entries = origin.seeds ++ results id entries ∧
      origin.argument? (consumedOf id entries) = some argument := by
  obtain ⟨origin, known, hbuilt, rfl, hknown⟩ := h
  cases origin with
  | index f' limit place =>
    cases known with
    | some v => cases hdue
    | none =>
      rw [Origin.generator, Generator.due?] at hdue
      split at hdue
      · cases hdue
      · next hlimit =>
        cases hdue
        refine ⟨_, hbuilt, rfl, rfl, ?_, if_neg hlimit⟩
        rw [hknown, Option.toList_none, List.append_nil]
  | iterate f' seed place =>
    cases known with
    | some v => cases hdue
    | none =>
      rw [Origin.generator] at hdue
      cases hlast : (consumedOf id entries).getLast? with
      | none =>
        rw [hlast] at hdue
        cases hdue
      | some previous =>
        rw [hlast] at hdue
        cases hdue
        refine ⟨_, hbuilt, rfl, rfl, ?_, hlast⟩
        rw [hknown, Option.toList_none, List.append_nil]

/-- What a generator becomes when it gives an element. -/
theorem Origin.generator_given (origin : Origin) (consumed : List Value) (known : Option Value)
    (peek : Bool) (v : Value) :
    (origin.generator consumed known).given peek v =
      if peek then origin.generator consumed (some v)
      else origin.generator (consumed ++ [v]) none := by
  cases origin with
  | index f limit position =>
    cases peek <;> simp [Origin.generator, Generator.given]
  | iterate f seed position =>
    cases peek <;> simp [Origin.generator, Generator.given]

/-- The record tells what the next element of a generator is. -/
def Gives (entries : List Entry) (id : SourceId) (g : Generator) (v : Value) : Prop :=
  ∃ origin known, .built id origin ∈ entries ∧
    g = origin.generator (consumedOf id entries) known ∧
    origin.seeds ++ results id entries = consumedOf id entries ++ [v]

/-- The element that a generator knows is its next one. -/
theorem Accounts.gives_known {v : Value} (h : Accounts entries id g) (hknown : g.known? = some v) :
    Gives entries id g v := by
  obtain ⟨origin, known, hbuilt, hg, hall⟩ := h
  obtain rfl : known = some v := by
    rw [hg] at hknown
    cases origin <;> exact hknown
  exact ⟨origin, _, hbuilt, hg, hall⟩

/-- The element that a call gives is the next one. -/
theorem Accounts.gives_called {f argument v : Value} {position : Position} (h : Accounts entries id g)
    (hdue : g.due? = some (f, argument, position)) :
    Gives (entries ++ [.ended id argument (.ok v)]) id g v := by
  obtain ⟨origin, hbuilt, -, hg, hconsumed, -⟩ := h.due hdue
  have hsame : consumedOf id (entries ++ [.ended id argument (.ok v)]) = consumedOf id entries := by
    simp [consumedOf]
  refine ⟨origin, none, List.mem_append_left _ hbuilt, hsame.symm ▸ hg, ?_⟩
  rw [hsame, Entry.results_append, ← List.append_assoc, ← hconsumed]
  simp [results]

/-- An element that is looked at becomes known. -/
theorem Gives.looked {v : Value} (h : Gives entries id g v) :
    Accounts entries id (g.given true v) := by
  obtain ⟨origin, known, hbuilt, rfl, hall⟩ := h
  exact ⟨origin, some v, hbuilt, Origin.generator_given .., hall⟩

/-- An element that is consumed is the next one, in order. -/
theorem Gives.lawful {v : Value} (h : Gives entries id g v) : Lawful entries (.consumed id v) := by
  obtain ⟨origin, known, hbuilt, -, hall⟩ := h
  exact ⟨origin, hbuilt, hall ▸ List.prefix_rfl⟩

/-- When an element has been consumed, none is known. -/
theorem Gives.consumed {v : Value} (h : Gives entries id g v) :
    Accounts (entries ++ [.consumed id v]) id (g.given false v) := by
  obtain ⟨origin, known, hbuilt, rfl, hall⟩ := h
  have hconsumed : consumedOf id (entries ++ [.consumed id v]) = consumedOf id entries ++ [v] := by
    simp [consumedOf]
  refine ⟨origin, none, List.mem_append_left _ hbuilt, ?_, ?_⟩
  · rw [hconsumed]
    exact Origin.generator_given ..
  · rw [hconsumed, Entry.results_append, ← List.append_assoc, hall]
    simp [results]

end Accounts

/-! ## Keeping record and store together -/

/-- The record is orderly, and it belongs to the store. -/
structure Fine (w : Noted) : Prop where
  orderly : Orderly w.entries
  /-- What is noted is about sources that are there. -/
  born : ∀ e ∈ w.entries, ∀ id, e.about? = some id → id.index < w.store.sources.size
  accounts : ∀ id, (w.store.source id).generator.applies = true →
    Accounts w.entries id (w.store.source id).generator
  rooted : w.store.Rooted
  /-- Generators take from sequences that are there. -/
  linked : ∀ id, w.store.Has (w.store.source id).generator.references
  attuned : ∀ q, w.store.Attuned q
  running : ∀ id ∈ w.running, w.store.Running id

/-- What a run does to a store and a record. -/
structure Goes (w w' : Noted) : Prop where
  size_sources : w.store.sources.size ≤ w'.store.sources.size
  size_sequences : w.store.sequences.size ≤ w'.store.sequences.size
  /-- A sequence stays over its source. -/
  stays : ∀ q : SequenceId, q.index < w.store.sequences.size →
    (w'.store.sequence q).source = (w.store.sequence q).source
  /-- Nothing is noted about sources that are at work. -/
  entries : ∃ new, w'.entries = w.entries ++ new ∧
    ∀ id, (w.store.source id).busy = true → Silent id new
  /-- Sources that are at work are spared. -/
  busy : ∀ id, (w.store.source id).busy = true → w'.store.source id = w.store.source id
  idle : ∀ id, (w.store.source id).busy = false → (w'.store.source id).busy = false
  /-- What is consumed stays consumed, and what is known stays known until it is consumed. -/
  forward : ∀ id : SourceId, id.index < w.store.sources.size →
    (w.store.source id).advanced ≤ (w'.store.source id).advanced ∧
      ((w'.store.source id).advanced = (w.store.source id).advanced →
        (w.store.source id).generator.due? = none → (w'.store.source id).generator.due? = none)

namespace Goes

variable {w w' w'' : Noted}

protected theorem refl (w : Noted) : Goes w w where
  size_sources := Nat.le_refl _
  size_sequences := Nat.le_refl _
  stays _ _ := rfl
  entries := ⟨[], (List.append_nil _).symm, fun _ _ => .nil⟩
  busy _ _ := rfl
  idle _ h := h
  forward _ _ := ⟨Nat.le_refl _, fun _ h => h⟩

protected theorem trans (h : Goes w w') (h' : Goes w' w'') : Goes w w'' where
  size_sources := Nat.le_trans h.size_sources h'.size_sources
  size_sequences := Nat.le_trans h.size_sequences h'.size_sequences
  stays q hq := (h'.stays q (Nat.lt_of_lt_of_le hq h.size_sequences)).trans (h.stays q hq)
  entries := by
    obtain ⟨new, hnew, hsilent⟩ := h.entries
    obtain ⟨new', hnew', hsilent'⟩ := h'.entries
    refine ⟨new ++ new', by rw [hnew', hnew, List.append_assoc], fun id hbusy => ?_⟩
    exact (hsilent id hbusy).append (hsilent' id (by rw [h.busy id hbusy, hbusy]))
  busy id hbusy := (h'.busy id (by rw [h.busy id hbusy, hbusy])).trans (h.busy id hbusy)
  idle id hidle := h'.idle id (h.idle id hidle)
  forward id hid := by
    obtain ⟨hle, hdue⟩ := h.forward id hid
    obtain ⟨hle', hdue'⟩ := h'.forward id (Nat.lt_of_lt_of_le hid h.size_sources)
    refine ⟨Nat.le_trans hle hle', fun hsame hnone => hdue' ?_ (hdue ?_ hnone)⟩
    · exact Nat.le_antisymm (hsame ▸ hle) hle'
    · exact Nat.le_antisymm (hsame ▸ hle') hle

/-- Sequences stay there. -/
theorem has (h : Goes w w') {there : List SequenceId} (hthere : w.store.Has there) :
    w'.store.Has there :=
  fun q hq => Nat.lt_of_lt_of_le (hthere q hq) h.size_sequences

/-- A source whose function is running stays as it is. -/
theorem running (h : Goes w w') {id : SourceId} (hrunning : w.store.Running id) :
    w'.store.Running id := by
  rw [Store.Running, h.busy id hrunning.1]
  exact hrunning

end Goes

/-! ## Changes that leave sources and sequences alone -/

section Changes

variable {w : Noted}

/-- A store with the same sources and sequences. -/
theorem Goes.of_same {s : Store} (hsources : s.sources = w.store.sources)
    (hsequences : s.sequences = w.store.sequences) : Goes w { w with store := s } where
  size_sources := Nat.le_of_eq (by rw [hsources])
  size_sequences := Nat.le_of_eq (by rw [hsequences])
  stays q _ := by rw [Store.sequence_congr hsequences]
  entries := ⟨[], (List.append_nil _).symm, fun _ _ => .nil⟩
  busy id _ := Store.source_congr hsources
  idle id h := by
    rw [← h]
    exact congrArg Source.busy (Store.source_congr hsources)
  forward id _ := by
    have hsame : s.source id = w.store.source id := Store.source_congr hsources
    exact ⟨Nat.le_of_eq (by rw [hsame]), fun _ h => by rw [hsame, h]⟩

theorem Fine.of_same (h : Fine w) {s : Store} (hsources : s.sources = w.store.sources)
    (hsequences : s.sequences = w.store.sequences) : Fine { w with store := s } where
  orderly := h.orderly
  born := by
    rw [hsources]
    exact h.born
  accounts id := by
    rw [Store.source_congr hsources]
    exact h.accounts id
  rooted q := by
    rw [hsources, hsequences, Store.sequence_congr hsequences]
    exact h.rooted q
  linked id := by
    rw [Store.Has, hsequences, Store.source_congr hsources]
    exact h.linked id
  attuned q := by
    rw [Store.Attuned, Store.sequence_congr hsequences, Store.source_congr hsources]
    exact h.attuned q
  running id hid := by
    rw [Store.Running, Store.source_congr hsources]
    exact h.running id hid

/-! ## What is noted of no source -/

theorem Goes.note {e : Entry} (habout : e.about? = none) :
    Goes w { w with entries := w.entries ++ [e] } :=
  { Goes.refl w with
    entries := ⟨[e], rfl, fun _ _ => Entry.silent_singleton (by rw [habout]; exact nofun)⟩ }

theorem Fine.note (h : Fine w) {e : Entry} (habout : e.about? = none) (hlawful : Lawful w.entries e) :
    Fine { w with entries := w.entries ++ [e] } where
  orderly := .snoc h.orderly hlawful
  born e' he id hid := by
    rcases List.mem_append.mp he with he | he
    · exact h.born e' he id hid
    · rw [List.mem_singleton.mp he, habout] at hid
      cases hid
  accounts id happlies :=
    (h.accounts id happlies).append (Entry.silent_singleton (by rw [habout]; exact nofun))
  rooted := h.rooted
  linked := h.linked
  attuned := h.attuned
  running := h.running

/-! ## What is looked ahead to -/

theorem Goes.setPending (q : SequenceId) (pending : Option (Nat × Value)) :
    Goes w { w with store := w.store.setPending q pending } :=
  { Goes.refl w with
    size_sequences := Nat.le_of_eq (Store.size_sequences_setPending ..).symm
    stays := fun q' hq' => by
      by_cases h : q' = q
      · subst h
        rw [Store.sequence_setPending_self hq']
      · rw [Store.sequence_setPending_of_ne h] }

theorem Fine.setPending (h : Fine w) {q : SequenceId} {pending : Option (Nat × Value)}
    (hpending : q.index < w.store.sequences.size → ∀ stamp v, pending = some (stamp, v) →
      stamp ≤ (w.store.source (w.store.sequence q).source).advanced ∧
        (stamp = (w.store.source (w.store.sequence q).source).advanced →
          (w.store.source (w.store.sequence q).source).generator.due? = none)) :
    Fine { w with store := w.store.setPending q pending } where
  orderly := h.orderly
  born := h.born
  accounts := h.accounts
  running := h.running
  rooted q' hq' := by
    rw [Store.size_sequences_setPending] at hq'
    by_cases hq : q' = q
    · subst hq
      rw [Store.sequence_setPending_self hq']
      exact h.rooted q' hq'
    · rw [Store.sequence_setPending_of_ne hq]
      exact h.rooted q' hq'
  linked id := by
    rw [Store.Has, Store.size_sequences_setPending]
    exact h.linked id
  attuned q' := by
    by_cases hq : q' = q
    · subst hq
      by_cases hlt : q'.index < w.store.sequences.size
      · rw [Store.Attuned, Store.sequence_setPending_self hlt]
        exact hpending hlt
      · refine Store.attuned_of_le ?_
        rw [Store.size_sequences_setPending]
        exact Nat.le_of_not_lt hlt
    · rw [Store.Attuned, Store.sequence_setPending_of_ne hq]
      exact h.attuned q'

/-! ## New sources and sequences -/

/-- Of every other source a store tells the same after a new one. -/
theorem source_addSource_of_ne {s : Store} (g : Generator) {id : SourceId}
    (h : id ≠ ⟨s.sources.size⟩) : (s.addSource g).2.source id = s.source id := by
  have hne : id.index ≠ s.sources.size := fun heq => h (by cases id; exact congrArg _ heq)
  simp only [Store.addSource, Store.source, Array.getD_eq_getD_getElem?, Array.getElem?_push,
    if_neg hne]

theorem Goes.addSource (g : Generator) {new : List Entry}
    (hnew : ∀ e ∈ new, e.about? = some ⟨w.store.sources.size⟩) :
    Goes w { w with store := (w.store.addSource g).2, entries := w.entries ++ new } where
  size_sources := by simp [Store.addSource]
  size_sequences := Nat.le_refl _
  stays _ _ := rfl
  entries := by
    refine ⟨new, rfl, fun id hbusy e he habout => ?_⟩
    cases (hnew e he).symm.trans habout
    exact Nat.lt_irrefl _ (Store.exists_of_busy hbusy)
  busy id hbusy := Store.source_addSource_of_lt g (Store.exists_of_busy hbusy)
  idle id hidle := by
    by_cases h : id = ⟨w.store.sources.size⟩
    · subst h
      exact congrArg Source.busy (Store.source_addSource_new g)
    · exact (congrArg Source.busy (source_addSource_of_ne g h)).trans hidle
  forward id hid := by
    have hsame := Store.source_addSource_of_lt g hid
    exact ⟨Nat.le_of_eq (congrArg Source.advanced hsame.symm),
      fun _ h => (congrArg (·.generator.due?) hsame).trans h⟩

/-- A source is new, and its generator calls no function, or the record tells how it was built. -/
theorem Fine.addSource (h : Fine w) (g : Generator) {new : List Entry}
    (hnew : ∀ e ∈ new, e.about? = some ⟨w.store.sources.size⟩)
    (orderly : Orderly (w.entries ++ new))
    (haccount : g.applies = true → Accounts (w.entries ++ new) ⟨w.store.sources.size⟩ g)
    (hlinked : w.store.Has g.references) :
    Fine { w with store := (w.store.addSource g).2, entries := w.entries ++ new } where
  orderly := orderly
  born e he id habout := by
    simp only [Store.addSource, Array.size_push]
    rcases List.mem_append.mp he with he | he
    · exact Nat.lt_succ_of_lt (h.born e he id habout)
    · cases (hnew e he).symm.trans habout
      exact Nat.lt_succ_self _
  accounts id happlies := by
    by_cases hid : id = ⟨w.store.sources.size⟩
    · subst hid
      rw [Store.source_addSource_new] at happlies ⊢
      exact haccount happlies
    · rw [source_addSource_of_ne g hid] at happlies ⊢
      refine (h.accounts id happlies).append fun e he habout => hid ?_
      exact Option.some.inj (habout.symm.trans (hnew e he))
  rooted q hq := by
    simp only [Store.addSource, Array.size_push]
    exact Nat.lt_succ_of_lt (h.rooted q hq)
  linked id := by
    by_cases hid : id = ⟨w.store.sources.size⟩
    · subst hid
      rw [Store.source_addSource_new]
      exact hlinked
    · rw [source_addSource_of_ne g hid]
      exact h.linked id
  attuned q := by
    by_cases hq : q.index < w.store.sequences.size
    · rw [Store.Attuned, Store.source_addSource_of_lt g]
      · exact h.attuned q
      · exact h.rooted q hq
    · exact Store.attuned_of_le (Nat.le_of_not_lt hq)
  running id hid := by
    have hrunning := h.running id hid
    rw [Store.Running, Store.source_addSource_of_lt g (Store.exists_of_busy hrunning.1)]
    exact hrunning

theorem Goes.addSequence (q : Sequence) : Goes w { w with store := (w.store.addSequence q).2 } :=
  { Goes.refl w with
    size_sequences := by simp [Store.addSequence]
    stays := fun q' hq' => by rw [Store.sequence_addSequence_of_lt q hq'] }

/-- A sequence is new, over a source that is there. -/
theorem Fine.addSequence (h : Fine w) {q : Sequence} (hsource : q.source.index < w.store.sources.size)
    (hpending : q.pending = none) : Fine { w with store := (w.store.addSequence q).2 } where
  orderly := h.orderly
  born := h.born
  accounts := h.accounts
  running := h.running
  rooted q' hq' := by
    simp only [Store.addSequence, Array.size_push] at hq'
    rcases Nat.lt_succ_iff_lt_or_eq.mp hq' with hlt | heq
    · rw [Store.sequence_addSequence_of_lt q hlt]
      exact h.rooted q' hlt
    · obtain rfl : q' = ⟨w.store.sequences.size⟩ := by cases q'; exact congrArg _ heq
      rw [Store.sequence_addSequence_new]
      exact hsource
  linked id q' hq' := by
    simp only [Store.addSequence, Array.size_push]
    exact Nat.lt_succ_of_lt (h.linked id q' hq')
  attuned q' := by
    by_cases hlt : q'.index < w.store.sequences.size
    · rw [Store.Attuned, Store.sequence_addSequence_of_lt q hlt]
      exact h.attuned q'
    · by_cases heq : q' = ⟨w.store.sequences.size⟩
      · subst heq
        rw [Store.Attuned, Store.sequence_addSequence_new, hpending]
        intro stamp v hnone
        cases hnone
      · refine Store.attuned_of_le ?_
        have hne : q'.index ≠ w.store.sequences.size := fun h => heq (by cases q'; exact congrArg _ h)
        simp only [Store.addSequence, Array.size_push]
        omega

/-! ## A source at work -/

/-- A source changes, and what is noted with it is about that source. -/
theorem Fine.modifySource (h : Fine w) {id : SourceId} {f : Source → Source} {new : List Entry}
    {running : List SourceId} (hnew : ∀ e ∈ new, e.about? = some id ∧ id.index < w.store.sources.size)
    (orderly : Orderly (w.entries ++ new))
    (haccount : (f (w.store.source id)).generator.applies = true →
      Accounts (w.entries ++ new) id (f (w.store.source id)).generator)
    (hreferences : (f (w.store.source id)).generator.references =
      (w.store.source id).generator.references)
    (hadvanced : (w.store.source id).advanced ≤ (f (w.store.source id)).advanced)
    (hdue : (f (w.store.source id)).advanced = (w.store.source id).advanced →
      (w.store.source id).generator.due? = none → (f (w.store.source id)).generator.due? = none)
    (hrunning : ∀ other ∈ running, (w.store.modifySource id f).Running other) :
    Fine ⟨w.store.modifySource id f, w.entries ++ new, running⟩ where
  orderly := orderly
  born e he other habout := by
    rw [Store.size_sources_modifySource]
    rcases List.mem_append.mp he with he | he
    · exact h.born e he other habout
    · cases (hnew e he).1.symm.trans habout
      exact (hnew e he).2
  accounts other happlies := by
    rcases Store.source_modifySource_cases w.store id f other with hsame | ⟨rfl, -, hf⟩
    · rw [hsame] at happlies ⊢
      by_cases hother : other = id
      · subst hother
        by_cases hlt : other.index < w.store.sources.size
        · rw [← hsame, Store.source_modifySource_self hlt] at happlies ⊢
          exact haccount happlies
        · exact absurd (Store.exists_of_applies happlies) hlt
      · refine (h.accounts other happlies).append fun e he habout => hother ?_
        exact Option.some.inj (habout.symm.trans (hnew e he).1)
    · rw [hf] at happlies ⊢
      exact haccount happlies
  rooted q hq := by
    rw [Store.size_sources_modifySource]
    exact h.rooted q hq
  linked other := by
    rcases Store.source_modifySource_cases w.store id f other with hsame | ⟨-, -, hf⟩
    · rw [hsame]
      exact h.linked other
    · rw [hf, hreferences]
      exact h.linked id
  attuned q stamp v hpending := by
    obtain ⟨hle, hnone⟩ := h.attuned q stamp v hpending
    rcases Store.source_modifySource_cases w.store id f (w.store.sequence q).source with
      hsame | ⟨hid, -, hf⟩
    · simp only [Store.sequence_modifySource, hsame]
      exact ⟨hle, hnone⟩
    · rw [hid] at hle hnone
      simp only [Store.sequence_modifySource]
      rw [hf]
      refine ⟨Nat.le_trans hle hadvanced, fun hstamp => ?_⟩
      have hstill : stamp = (w.store.source id).advanced :=
        Nat.le_antisymm hle (hstamp ▸ hadvanced)
      exact hdue (hstamp.symm.trans hstill) (hnone hstill)
  running := hrunning

/-- From one store and record to the other a source went to work. -/
structure Held (id : SourceId) (w w' : Noted) : Prop where
  idle : (w.store.source id).busy = false
  store : w'.store = w.store.modifySource id ({ · with busy := true })
  entries : ∃ new, w'.entries = w.entries ++ new ∧ ∀ e ∈ new, e.about? = some id

section Held

variable {w' w'' : Noted} {id : SourceId} (held : Held id w w')

include held

/-- The source is closed, if it is there. -/
theorem Held.source (hid : id.index < w.store.sources.size) :
    w'.store.source id = { w.store.source id with busy := true } := by
  rw [held.store, Store.source_modifySource_self hid]

theorem Held.source_of_ne {other : SourceId} (h : other ≠ id) :
    w'.store.source other = w.store.source other := by
  rw [held.store, Store.source_modifySource_of_ne h]

/-- While it is at work a source stays as it is. -/
theorem Held.source_goes (goes : Goes w' w'') (hid : id.index < w.store.sources.size) :
    w''.store.source id = { w.store.source id with busy := true } := by
  have hbusy : (w'.store.source id).busy = true := congrArg Source.busy (held.source hid)
  rw [goes.busy id hbusy, held.source hid]

/-- A source has been at work and is free again. -/
theorem Held.release (goes : Goes w' w'') {f : Source → Source} {new : List Entry}
    {running : List SourceId} (hnew : ∀ e ∈ new, e.about? = some id)
    (hf : ∀ source, (f source).busy = false)
    (hadvanced : ∀ source, source.advanced ≤ (f source).advanced)
    (hdue : (f { w.store.source id with busy := true }).advanced = (w.store.source id).advanced →
      (w.store.source id).generator.due? = none →
      (f { w.store.source id with busy := true }).generator.due? = none) :
    Goes w ⟨w''.store.modifySource id f, w''.entries ++ new, running⟩ where
  size_sources := by
    have hsize := goes.size_sources
    rw [held.store, Store.size_sources_modifySource] at hsize
    rw [Store.size_sources_modifySource]
    exact hsize
  size_sequences := by
    have hsize := goes.size_sequences
    rw [held.store] at hsize
    exact hsize
  stays q hq := by
    have hover := goes.stays q (by rw [held.store]; exact hq)
    rw [held.store] at hover
    exact hover
  entries := by
    obtain ⟨before, hbefore, habout⟩ := held.entries
    obtain ⟨inner, hinner, hsilent⟩ := goes.entries
    refine ⟨before ++ inner ++ new, ?_, fun other hbusy => ?_⟩
    · rw [hinner, hbefore, List.append_assoc, List.append_assoc, List.append_assoc]
    · have hother : other ≠ id := by
        rintro rfl
        exact Bool.false_ne_true (held.idle.symm.trans hbusy)
      have hsingle : ∀ {entries : List Entry}, (∀ e ∈ entries, e.about? = some id) →
          Silent other entries := fun habout e he heq =>
        hother (Option.some.inj (heq.symm.trans (habout e he)))
      refine ((hsingle habout).append (hsilent other ?_)).append (hsingle hnew)
      rw [held.source_of_ne hother, hbusy]
  busy other hbusy := by
    have hother : other ≠ id := by
      rintro rfl
      exact Bool.false_ne_true (held.idle.symm.trans hbusy)
    have hstill := goes.busy other (by rw [held.source_of_ne hother, hbusy])
    rw [Store.source_modifySource_of_ne hother, hstill, held.source_of_ne hother]
  idle other hidle := by
    rcases Store.source_modifySource_cases w''.store id f other with hsame | ⟨-, -, hsource⟩
    · rw [hsame]
      by_cases hother : other = id
      · subst hother
        by_cases hlt : other.index < w''.store.sources.size
        · rw [← hsame, Store.source_modifySource_self hlt, hf]
        · rw [Store.source_of_le (Nat.le_of_not_lt hlt)]
      · exact goes.idle other (by rw [held.source_of_ne hother, hidle])
    · rw [hsource, hf]
  forward other hid := by
    have hid' : other.index < w'.store.sources.size := by
      rw [held.store, Store.size_sources_modifySource]
      exact hid
    by_cases hother : other = id
    · subst hother
      have hsource := held.source_goes goes hid
      rw [Store.source_modifySource_self (Nat.lt_of_lt_of_le hid' goes.size_sources), hsource]
      exact ⟨hadvanced { w.store.source other with busy := true }, hdue⟩
    · have hforward := goes.forward other hid'
      rw [held.source_of_ne hother] at hforward
      rw [Store.source_modifySource_of_ne hother]
      exact hforward

end Held

end Changes

end Recorded

end Abacus
