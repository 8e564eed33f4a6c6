import Abacus.Proofs.Sequence.Abreast
import Abacus.Proofs.Sequence.Pipeline

/-!
# A source on top

`take` and `zip` put a new source on top of the sequences that they take from, and a sequence without
transformers over it. Nothing else reads from that source, so what happens to it goes unnoticed
(`Setting.Twins.beside`), and what the sequence over it does is what its generator does.

**The law** (`Setting.Atop.given`): after its generator has given an element, the source stands on top
as before, with what the generator has become; it counts the elements that it has given for good.
-/

namespace Abacus

namespace Sequence

variable {call : Call} {reader : Reader} {t : SequenceId} {fuel : Nat} {s : Store}

/-- A sequence without transformers that holds nothing takes hold of the next raw element. -/
theorem lookahead_plain (hp : (s.sequence t).pending = none)
    (plain : (s.sequence t).transformers = []) :
    lookahead call reader (fuel + 1) t s =
      (do
        match ← raw call reader true (s.sequence t).source (s.sequence t).position with
        | none => return none
        | some v =>
          modify (·.setPending t (some ((s.source (s.sequence t).source).advanced, v)))
          return some v : Action (Option Value)) s := by
  rw [Setting.lookahead_of_none hp, seek, Action.view_bind, plain]
  rfl

/-- A source that has worked without giving anything is what it was. -/
theorem release_engage {s : Store} {id : SourceId} (idle : (s.source id).busy = false) :
    release (engage s id) id = s := by
  have hsources : (release (engage s id) id).sources = s.sources := by
    apply Array.ext_getElem?
    intro i
    simp only [release, engage, Store.modifySource, Array.getElem?_modify]
    by_cases hi : id.index = i
    · subst hi
      cases hs : s.sources[id.index]? with
      | none => simp
      | some source =>
        have hidle : source.busy = false := by
          simpa [Store.source, Array.getD_eq_getD_getElem?, hs] using idle
        simp [← hidle]
    · simp only [if_neg hi]
  show { s with sources := (release (engage s id) id).sources } = s
  rw [hsources]

end Sequence

namespace Setting

variable {D : Type} {E : Setting D} {T : SourceId} {t : SequenceId} {g g' : Generator}
  {s s' s₀ s₁ s₂ : Store} {v w : Value} {p : Position}

/-- A source with a generator, and a sequence without transformers over it. Nothing that is watched
reads from the source. -/
structure Atop (E : Setting D) (T : SourceId) (t : SequenceId) (g : Generator) (s : Store) : Prop where
  lt : T.index < s.sources.size
  own : E.own T
  apart : ¬ E.Feeds T
  generator : (s.source T).generator = g
  idle : (s.source T).busy = false
  exists_sequence : t.index < s.sequences.size
  source : (s.sequence t).source = T
  plain : (s.sequence t).transformers = []

/-- A source that has just been made stands on top of all that is watched. -/
theorem Atop.of_begins (closed : E.Closed) (hown : E.own ⟨E.start.sources.size⟩) {x : Value}
    (h : Stage.Begins ⟨E.start.sources.size⟩ g ⟨[], p⟩ s x) :
    ∃ t, x = .sequence t ∧ E.Atop ⟨E.start.sources.size⟩ t g s ∧ (s.sequence t).pending = none := by
  obtain ⟨t, rfl, fresh, hpipe⟩ := h
  refine ⟨t, rfl, ⟨fresh.exists_source, hown, ?_, ?_, ?_, fresh.exists_of_family rfl,
    fresh.source_of_family rfl, congrArg Pipe.transformers hpipe⟩, fresh.pending rfl⟩
  · exact fun hfeeds => Nat.lt_irrefl _ (closed.lt hfeeds)
  · rw [fresh.source]
  · rw [fresh.source]

/-- How the source stands after it has given an element, and the sequence over it holds something or
nothing. -/
structure Given (E : Setting D) (T : SourceId) (t : SequenceId) (g : Generator) (peek : Bool)
    (p : Option (Nat × Value)) (s s₁ s₂ : Store) : Prop where
  behind : s₁.Keeps (· = T) s₂
  atop : E.Atop T t g s₂
  advanced : (s₂.source T).advanced = (s.source T).advanced + (if peek then 0 else 1)
  pending : (s₂.sequence t).pending = p

namespace Atop

variable (h : E.Atop T t g s)

include h

/-- The source is outside of what is read. -/
theorem outside : ∀ id, E.Feeds id → ¬ id = T := by
  rintro _ hid rfl
  exact h.apart hid

/-- A source on top is one that may be read. -/
theorem sub : ∀ id, id = T → E.own id := by
  rintro _ rfl
  exact h.own

/-- While the source is at work it stays as it is, and the sequence over it as it was built. -/
theorem working {own : SourceId → Prop} (kept : (Sequence.engage s T).Keeps own s₁)
    (spares : (Sequence.engage s T).Spares s₁) :
    T.index < s₁.sources.size ∧ s₁.source T = { s.source T with busy := true } ∧
      t.index < s₁.sequences.size ∧ (s₁.sequence t).source = T ∧
      (s₁.sequence t).transformers = [] := by
  have hlt := Nat.lt_of_lt_of_le h.lt (Sequence.keeps_engage s T).size_sources
  refine ⟨Nat.lt_of_lt_of_le hlt kept.size_sources, spares.source_engage h.lt,
    Nat.lt_of_lt_of_le h.exists_sequence kept.size_sequences, ?_, ?_⟩
  · rw [kept.source_eq h.exists_sequence]
    exact h.source
  · rw [kept.transformers_eq h.exists_sequence]
    exact h.plain

/-- **After its generator has given an element, the source stands on top as before.** -/
theorem given {own : SourceId → Prop} (g' : Generator) (kept : (Sequence.engage s T).Keeps own s₁)
    (spares : (Sequence.engage s T).Spares s₁) (references : g'.references = g.references)
    (peek : Bool) (p : Option (Nat × Value)) :
    E.Given T t g' peek p s s₁
      ((Sequence.release (Sequence.deliver s₁ T g' peek) T).setPending t p) := by
  generalize hs₂ : (Sequence.release (Sequence.deliver s₁ T g' peek) T).setPending t p = s₂
  obtain ⟨hlt, hfirst, hexists, hsource, hplain⟩ := h.working kept spares
  have hreferences : g'.references = (s₁.source T).generator.references := by
    rw [hfirst, h.generator, references]
  have behind : s₁.Keeps (· = T) s₂ := by
    rw [← hs₂]
    exact (Sequence.keeps_delivered hreferences peek).trans (Store.keeps_setPending _ hsource p)
  have hlast : s₂.source T =
      ⟨g', (s.source T).advanced + (if peek then 0 else 1), false⟩ := by
    rw [← hs₂, Store.source_setPending, Sequence.source_delivered hlt, hfirst]
  refine ⟨behind, ⟨?_, h.own, h.apart, ?_, ?_, ?_, ?_, ?_⟩, ?_, ?_⟩
  · exact Nat.lt_of_lt_of_le hlt behind.size_sources
  · rw [hlast]
  · rw [hlast]
  · exact Nat.lt_of_lt_of_le hexists behind.size_sequences
  · rw [behind.source_eq hexists, hsource]
  · rw [behind.transformers_eq hexists, hplain]
  · rw [hlast]
  · subst hs₂
    exact congrArg Sequence.pending (Store.sequence_setPending_self hexists p)

/-! ## The sequence over the source -/

section Reads

variable {call : Call} {reader : Reader} {fuel : Nat} {e : Interruption}

/-- A sequence on top is at its end if its source has nothing to give. -/
theorem lookahead_ended (hp : (s.sequence t).pending = none)
    (hpull : g.pull call reader true (Sequence.engage s T) = .ok none s₁) :
    Sequence.lookahead call reader (fuel + 1) t s = .ok none (Sequence.release s₁ T) := by
  rw [Sequence.lookahead_plain hp h.plain, h.source,
    Action.bind_ok (Sequence.raw_ended h.idle (by rw [h.generator]; exact hpull))]
  rfl

/-- It fails if its source fails. -/
theorem lookahead_error (hp : (s.sequence t).pending = none)
    (hpull : g.pull call reader true (Sequence.engage s T) = .error e s₁) :
    Sequence.lookahead call reader (fuel + 1) t s = .error e (Sequence.release s₁ T) := by
  rw [Sequence.lookahead_plain hp h.plain, h.source,
    Action.bind_error (Sequence.raw_failed h.idle (by rw [h.generator]; exact hpull))]

/-- The sequence takes hold of what the generator gives. -/
theorem lookahead_found (hp : (s.sequence t).pending = none)
    (hpull : g.pull call reader true (Sequence.engage s T) = .ok (some (v, g')) s₁) :
    Sequence.lookahead call reader (fuel + 1) t s = .ok (some v)
      ((Sequence.release (Sequence.deliver s₁ T g' true) T).setPending t
        (some ((s.source T).advanced, v))) := by
  rw [Sequence.lookahead_plain hp h.plain, h.source,
    Action.bind_ok (Sequence.raw_found h.idle (by rw [h.generator]; exact hpull))]
  rfl

/-- The sequence delivers what it holds, when the generator has given an element for good. -/
theorem next_found (holds : s.Holds t v)
    (hpull : g.pull call reader false (Sequence.engage s T) = .ok (some (w, g')) s₁) :
    Sequence.next call reader fuel t p s = .ok v
      ((Sequence.release (Sequence.deliver s₁ T g' false) T).setPending t none) := by
  rw [Sequence.next_some (Sequence.lookahead_of_holds holds), h.source,
    Action.bind_ok (Sequence.raw_found h.idle (by rw [h.generator]; exact hpull))]
  rfl

/-- A value that was looked ahead to is lost if the source fails when it is taken. -/
theorem next_lost (holds : s.Holds t v)
    (hpull : g.pull call reader false (Sequence.engage s T) = .error e s₁) :
    Sequence.next call reader fuel t p s = .error e (Sequence.release s₁ T) := by
  rw [Sequence.next_some (Sequence.lookahead_of_holds holds), h.source,
    Action.bind_error (Sequence.raw_failed h.idle (by rw [h.generator]; exact hpull))]

end Reads

end Atop

/-- What the sequence over the source has taken hold of when the source was looked at is held. -/
theorem Given.holds (h : E.Given T t g true (some ((s.source T).advanced, v)) s s₁ s₂) :
    s₂.Holds t v := by
  rw [Store.Holds, h.pending, h.atop.source, h.advanced]
  rfl

end Setting

end Abacus
