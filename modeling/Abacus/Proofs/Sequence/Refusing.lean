import Abacus.Proofs.Sequence.Raw
import Abacus.Proofs.Store.Keeping

/-!
# Sequences that refuse

While a generator makes a call, every sequence over its source refuses what it is asked for. It cannot
answer from what it has looked ahead to: that would hold good only if the generator knew its next
element, and then there would be no call to make (`Store.Attuned`). What does not hold good any more
may be dropped on the way, and nothing else happens.

**The law** (`Sequence.lookahead_refused`): a sequence over a generator that makes a call refuses, and
so does whatever begins by asking it (`Sequence.Refuses`).
-/

namespace Abacus

/-! ## Generators that call functions -/

namespace Generator

/-- The call that a generator has to make for its next element. -/
def due? : Generator → Option (Value × Value × Position)
  | .index f place limit none position =>
    if limit.any (· ≤ (place : Int)) then none else some (f, .ofNat place, position)
  | .iterate f none (some previous) position => some (f, previous, position)
  | _ => none

/-- Whether a generator calls a function. -/
def applies : Generator → Bool
  | .index .. | .iterate .. => true
  | _ => false

/-- The next element, if a generator that calls a function knows it. -/
def known? : Generator → Option Value
  | .index _ _ _ cached _ => cached
  | .iterate _ upcoming _ _ => upcoming
  | _ => none

end Generator

/-! ## Sources and sequences of a store -/

namespace Store

variable {s : Store} {id other : SourceId} {q : SequenceId}

/-- A source that is not there is taken for one over the first vector. -/
theorem source_of_le (h : s.sources.size ≤ id.index) :
    s.source id = ⟨.vector ⟨0⟩ 0 .start, 0, false⟩ := by
  rw [source, Array.getD_eq_getD_getElem?, Array.getElem?_eq_none h, Option.getD_none]

/-- A sequence that is not there is taken for one over the first source. -/
theorem sequence_of_le (h : s.sequences.size ≤ q.index) :
    s.sequence q = ⟨⟨0⟩, [], none, .start⟩ := by
  rw [sequence, Array.getD_eq_getD_getElem?, Array.getElem?_eq_none h, Option.getD_none]

/-- A source of which something is known that is not so of one that is not there is there. -/
theorem exists_of_applies (h : (s.source id).generator.applies = true) :
    id.index < s.sources.size := by
  refine Nat.lt_of_not_le fun hle => ?_
  rw [source_of_le hle] at h
  cases h

theorem exists_of_busy (h : (s.source id).busy = true) : id.index < s.sources.size := by
  refine Nat.lt_of_not_le fun hle => ?_
  rw [source_of_le hle] at h
  cases h

theorem source_congr {t : Store} (h : t.sources = s.sources) : t.source id = s.source id := by
  rw [source, source, h]

theorem sequence_congr {t : Store} (h : t.sequences = s.sequences) : t.sequence q = s.sequence q := by
  rw [sequence, sequence, h]

theorem modifySource_modifySource (s : Store) (id : SourceId) (f g : Source → Source) :
    (s.modifySource id f).modifySource id g = s.modifySource id fun source => g (f source) := by
  have h : (s.sources.modify id.index f).modify id.index g =
      s.sources.modify id.index fun source => g (f source) := by
    apply Array.ext_getElem?
    intro i
    simp only [Array.getElem?_modify]
    split
    · rw [Option.map_map]
      rfl
    · rfl
  simp only [modifySource, h]

/-- A source that is not there cannot change. -/
theorem modifySource_of_le (h : s.sources.size ≤ id.index) (f : Source → Source) :
    s.modifySource id f = s := by
  have hsame : s.sources.modify id.index f = s.sources := by
    apply Array.ext_getElem?
    intro i
    rw [Array.getElem?_modify]
    split
    · next hi => rw [← hi, Array.getElem?_eq_none h, Option.map_none]
    · rfl
  rw [modifySource, hsame]

/-- Each source is as it was after a change, or it is the one that has been changed. -/
theorem source_modifySource_cases (s : Store) (id : SourceId) (f : Source → Source)
    (other : SourceId) :
    (s.modifySource id f).source other = s.source other ∨
      other = id ∧ id.index < s.sources.size ∧ (s.modifySource id f).source other = f (s.source id) := by
  by_cases hother : other = id
  · subst hother
    by_cases hlt : other.index < s.sources.size
    · exact .inr ⟨rfl, hlt, source_modifySource_self hlt f⟩
    · have hle := Nat.le_of_not_lt hlt
      refine .inl ?_
      rw [source_of_le (s := s.modifySource other f) (by rw [size_sources_modifySource]; exact hle),
        source_of_le hle]
  · exact .inl (source_modifySource_of_ne hother f)

/-- These sequences are there. -/
def Has (s : Store) (there : List SequenceId) : Prop := ∀ q ∈ there, q.index < s.sequences.size

/-- What a sequence has looked ahead to is not too new, and if it holds good, the generator knows its
next element. -/
def Attuned (s : Store) (q : SequenceId) : Prop :=
  ∀ stamp v, (s.sequence q).pending = some (stamp, v) →
    stamp ≤ (s.source (s.sequence q).source).advanced ∧
      (stamp = (s.source (s.sequence q).source).advanced →
        (s.source (s.sequence q).source).generator.due? = none)

/-- A sequence that is not there has looked ahead to nothing. -/
theorem attuned_of_le (h : s.sequences.size ≤ q.index) : s.Attuned q := by
  intro stamp v hpending
  rw [sequence_of_le h] at hpending
  cases hpending

/-- What a sequence has looked ahead to does not hold good any more. -/
def Outdated (s : Store) (q : SequenceId) : Prop :=
  ∃ stamp v, (s.sequence q).pending = some (stamp, v) ∧
    stamp < (s.source (s.sequence q).source).advanced

/-- The generator of a source is at work, and it has a call to make. -/
def Running (s : Store) (id : SourceId) : Prop :=
  (s.source id).busy = true ∧ (s.source id).generator.due? ≠ none

/-- The sequences that are there are over sources that are there. -/
def Rooted (s : Store) : Prop :=
  ∀ q : SequenceId, q.index < s.sequences.size → (s.sequence q).source.index < s.sources.size

theorem rooted_modifySource (f : Source → Source) : (s.modifySource id f).Rooted ↔ s.Rooted := by
  simp only [Rooted, size_sources_modifySource, size_sequences_modifySource, sequence_modifySource]

end Store

/-! ## Refusals -/

namespace Sequence

variable {call : Call} {reader : Reader} {id : SequenceId} {s : Store}

/-- A sequence refuses, and at most drops what does not hold good any more. -/
def Refused {α : Type} (s : Store) (id : SequenceId) (result : EStateM.Result Interruption Store α) :
    Prop :=
  ∃ s', result = .error (.fault ⟨.reentrantSequence, (s.sequence id).position⟩) s' ∧
    (s' = s ∨ s.Outdated id ∧ s' = s.setPending id none)

/-- With rounds to go, an answer is asked for in vain while the generator makes a call. -/
def Refuses (rounds : Nat) (id : SequenceId) (y : Action Value) : Prop :=
  rounds ≠ 0 → ∀ {s : Store}, s.Attuned id → s.Running (s.sequence id).source → Refused s id (y s)

/-- After a refusal nothing else happens. -/
theorem Refused.bind {α β : Type} {x : Action α} {f : α → Action β} (h : Refused s id (x s)) :
    Refused s id ((x >>= f) s) := by
  obtain ⟨s', hs', hcases⟩ := h
  exact ⟨s', Action.bind_error hs' f, hcases⟩

/-- Nothing is found while the source is at work. -/
theorem seek_refused {q : Sequence} (busy : (s.source q.source).busy = true) (fuel : Nat) :
    seek call reader id q (fuel + 1) s = .error (.fault ⟨.reentrantSequence, q.position⟩) s := by
  rw [seek, Action.view_bind]
  exact Action.bind_error (raw_busy busy) _

/-- **A sequence over a generator that makes a call refuses.** -/
theorem lookahead_refused (attuned : s.Attuned id) (running : s.Running (s.sequence id).source)
    (fuel : Nat) : Refused s id (lookahead call reader (fuel + 1) id s) := by
  rw [lookahead, Action.view_bind, Action.view_bind]
  cases hpending : (s.sequence id).pending with
  | none => exact ⟨s, seek_refused running.1 fuel, .inl rfl⟩
  | some found =>
    obtain ⟨stamp, v⟩ := found
    obtain ⟨hle, hknown⟩ := attuned stamp v hpending
    have hne : stamp ≠ (s.source (s.sequence id).source).advanced := fun h => running.2 (hknown h)
    refine ⟨s.setPending id none, ?_, .inr ⟨⟨stamp, v, hpending, Nat.lt_of_le_of_ne hle hne⟩, rfl⟩⟩
    dsimp only
    rw [if_neg hne, Action.modify_bind]
    exact seek_refused (s := s.setPending id none) running.1 fuel

section Requests

variable (attuned : s.Attuned id) (running : s.Running (s.sequence id).source)

include attuned running

theorem atEnd_refused (fuel : Nat) : Refused s id (atEnd call reader (fuel + 1) id s) :=
  (lookahead_refused attuned running fuel).bind

theorem peek_refused (fuel : Nat) (position : Position) :
    Refused s id (peek call reader (fuel + 1) id position s) :=
  (lookahead_refused attuned running fuel).bind

theorem next_refused (fuel : Nat) (position : Position) :
    Refused s id (next call reader (fuel + 1) id position s) :=
  (peek_refused attuned running fuel position).bind

theorem foldAll_refused {σ : Type} (position : Position) (step : σ → Value → Action σ) (fuel : Nat)
    (state : σ) : Refused s id (foldAll call reader id position step (fuel + 1) state s) := by
  rw [foldAll]
  exact (atEnd_refused attuned running fuel).bind

theorem collect_refused (fuel : Nat) : Refused s id (collect call reader (fuel + 1) id s) := by
  rw [collect, Action.view_bind]
  exact (foldAll_refused attuned running _ _ fuel []).bind

omit attuned in
/-- Skipping is refused whatever the sequence has looked ahead to. -/
theorem skip_refused (count : Nat) : Refused s id (skip call reader id (count + 1) s) := by
  rw [skip, Action.view_bind]
  exact ⟨s, Action.bind_error (raw_busy running.1) _, .inl rfl⟩

end Requests

end Sequence

end Abacus
