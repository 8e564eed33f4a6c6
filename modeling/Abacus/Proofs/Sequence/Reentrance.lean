import Abacus.Proofs.Run.Recordings

/-!
# Re-entrant use

While a generator calls its function, the function may come back to a sequence over the same source: it
is refused, and neither the generator nor the count of what has been consumed changes. What the
sequence had looked ahead to is no way around that, since it does not hold good (`Store.Attuned`). When
the read is over, by a value, a fault or the end of the program, the source is free again.

**The law** (`Recorded.reentrant_use_refused`): so it is in the record of every list of sources that
run one after the other; and had the sequences not been asked at all, but the fault been given at once,
then every run would end in the same way. The stores would be the same but for what sequences have
looked ahead to that does not hold good any more, which an asked sequence drops.
-/

namespace Abacus

/-- A source is free when it has been read, however the read ends. -/
theorem Sequence.raw_frees (call : Call) (reader : Reader) (peek : Bool) {id : SourceId}
    (position : Position) {s : Store} (idle : (s.source id).busy = false) :
    ((storeAfter (raw call reader peek id position s)).source id).busy = false := by
  have hreleased : ∀ t : Store, ((release t id).source id).busy = false := by
    intro t
    by_cases hlt : id.index < t.sources.size
    · rw [source_release hlt]
    · rw [Store.source_of_le (by rw [release, Store.size_sources_modifySource]; exact Nat.le_of_not_lt hlt)]
  rw [raw_idle idle, holding]
  split
  · exact hreleased _
  · exact hreleased _

namespace Recorded

open Store (initial outermost)

/-- **Re-entrant use of a sequence is refused, and it is harmless.** -/
theorem reentrant_use_refused (sources : List String) :
    (afterSources false initial.2 outermost sources).store = initial.2.afterSources outermost sources ∧
    let s := initial.2.afterSources outermost sources
    let r := afterSources false initial.2 outermost sources
    let q := afterSources true initial.2 outermost sources
    (∀ (position : Position) (before after : Source) (answer : Except Interruption Value),
      .reentered position before after answer ∈ r.entries →
        answer = .error (.fault ⟨.reentrantSequence, position⟩) ∧
          Fault.reentrantSequence.kind = .unsupportedOperation ∧ after = before) ∧
    (∀ id, (s.source id).busy = false) ∧
    (∀ (call : Abacus.Call) (reader : Abacus.Reader) (peek : Bool) (id : SourceId)
      (position : Position) (t : Store), (t.source id).busy = false →
        ((storeAfter (Sequence.raw call reader peek id position t)).source id).busy = false) ∧
    Mirrors true q.store s ∧
    ∀ source, ending (runSource true source outermost q) = ending (Abacus.runSource source outermost s) := by
  have plain := faithful_afterSources false sources
  have strict := faithful_afterSources true sources
  refine ⟨plain.mirrors.eq.symm, ?_⟩
  intro s r q
  refine ⟨?_, ?_, ?_, strict.mirrors, ?_⟩
  · intro position before after answer hmem
    obtain ⟨earlier, later, hentries⟩ := List.append_of_mem hmem
    have horderly := plain.fine.orderly
    obtain ⟨hanswer, hsame⟩ := (hentries ▸ horderly : Entry.Orderly (earlier ++ _ :: later)).lawful
    exact ⟨hanswer, rfl, hsame⟩
  · intro id
    rw [show s = r.store from plain.mirrors.eq]
    exact plain.free id
  · intro call reader peek id position t idle
    exact Sequence.raw_frees call reader peek position idle
  · intro source
    exact (strict.runSource source).1

/-- A function asks a sequence that is derived from its own, and goes on without an answer. -/
theorem reentrant_use_of_derived :
    let sources :=
      ["s = seq(|i| try_or(|| next(t), i)); t = map(s, |v| v + 1); peek(t); next(t); next(s)"]
    let s := initial.2.afterSources outermost sources
    let r := afterSources false initial.2 outermost sources
    (∃ position source, .reentered position source source
      (.error (.fault ⟨.reentrantSequence, position⟩)) ∈ r.entries) ∧
    (s.source ⟨0⟩).advanced = 2 ∧ (s.source ⟨0⟩).busy = false ∧
    ((storeAfter (Sequence.raw (Action.apply 9) (.ofDepth (Action.apply 9) 9) false ⟨0⟩ .start s)).source
      ⟨0⟩).busy = false := by
  intro sources s r
  obtain ⟨-, hanswers, hfree, hfreed, -⟩ := reentrant_use_refused sources
  have hany : (r.entries.any fun e => e matches .reentered ..) = true := by decide +kernel
  obtain ⟨e, hmem, he⟩ := List.any_eq_true.mp hany
  have hadvanced : (s.source ⟨0⟩).advanced = 2 := by decide +kernel
  refine ⟨?_, hadvanced, hfree ⟨0⟩, hfreed _ _ false ⟨0⟩ .start s (hfree ⟨0⟩)⟩
  split at he
  · obtain ⟨rfl, -, rfl⟩ := hanswers _ _ _ _ hmem
    exact ⟨_, _, hmem⟩
  · cases he

end Recorded

end Abacus
