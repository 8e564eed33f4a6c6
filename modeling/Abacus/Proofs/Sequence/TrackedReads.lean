import Abacus.Proofs.Sequence.TrackedSources

/-!
# Tracking reads

What reads sequences is tracked if the calls are that it makes, as long as the sequences are there.
What has been looked ahead to is kept together with the number of elements that had been consumed when
the search for it began; by then the generator has given the element it was made from, so if nothing
is consumed in the meantime, the generator knows its next element.

**The laws** (`Recorded.lookahead_tracks`, `Recorded.advance_tracks`): looking ahead in a sequence is
tracked, and so is consuming a raw element of it.
-/

namespace Abacus

/-- Where a sequence has been built tells how it is searched, whatever it has looked ahead to. -/
theorem Sequence.seek_pending {call : Call} {reader : Reader} {id : SequenceId} {q : Sequence}
    (pending : Option (Nat × Value)) (fuel : Nat) :
    Sequence.seek call reader id { q with pending } fuel = Sequence.seek call reader id q fuel := by
  induction fuel with
  | zero => rfl
  | succ fuel ih => rw [seek, seek, ih]

namespace Recorded

open Abacus.Action (Obeys)

variable {strict vetted : Bool} {there : List SequenceId} {call : Probed.Call Noted} {call' : Call}
  {reader : Probed.Reader Noted} {reader' : Reader}
  (hcall : (tracking strict vetted).Calls call call')
  (hreader : (tracking strict vetted).Reads reader reader')

include hcall

theorem transform_tracks (position : Position) (ts : List Transformer) (value : Value) :
    Tracks strict vetted there (Probed.transform call position ts value)
      (Sequence.transform call' position ts value) :=
  hcall.transform (fun t _ => by cases t <;> exact Value.under_any _) value.under_any

include hreader

/-- What a search finds becomes what has been looked ahead to. -/
theorem seek_tracked {id : SequenceId} {q : Sequence} (fuel : Nat) {w : Noted} {t : Store}
    (fine : Fine w) (mirrors : Mirrors strict w.store t) (hid : id.index < w.store.sequences.size)
    (hsource : (w.store.sequence id).source = q.source) :
    Tracked strict vetted w (Probed.seek (probe strict) call reader id q fuel w)
      (Sequence.seek call' reader' id q fuel t) := by
  induction fuel generalizing w t with
  | zero => exact .interruption (.refl fine mirrors)
  | succ fuel ih =>
    rw [Probed.seek, Sequence.seek, quiet_view_bind, Action.view_bind, mirrors.source_eq]
    refine (raw_tracks hcall hreader true q.source q.position w t fine mirrors
      (List.forall_mem_nil _)).bind fun found w₁ t₁ hfound _ follows₁ => ?_
    cases found with
    | none => exact .value (.refl follows₁.fine follows₁.mirrors)
    | some element =>
      have hrooted : q.source.index < w.store.sources.size := hsource ▸ fine.rooted id hid
      obtain ⟨hadvanced, hdue⟩ := raw_looked hcall hreader fine mirrors hrooted hfound
      refine (transform_tracks hcall q.position q.transformers element w₁ t₁ follows₁.fine
        follows₁.mirrors (List.forall_mem_nil _)).bind fun value w₂ t₂ _ _ follows₂ => ?_
      have follows := follows₁.trans follows₂
      have hid₂ := Nat.lt_of_lt_of_le hid follows.goes.size_sequences
      have hsource₂ : (w₂.store.sequence id).source = q.source :=
        (follows.goes.stays id hid).trans hsource
      cases value with
      | some v =>
        obtain ⟨hle, hknown⟩ := follows₂.goes.forward q.source
          (Nat.lt_of_lt_of_le hrooted follows₁.goes.size_sources)
        refine .value ⟨.setPending id _, rfl, follows₂.fine.setPending fun _ stamp u hpending => ?_,
          follows₂.mirrors.setPending id _⟩
        cases hpending
        rw [hsource₂, ← hadvanced]
        exact ⟨hle, fun hsame => hknown hsame.symm hdue⟩
      | none =>
        exact (raw_tracks hcall hreader false q.source q.position w₂ t₂ follows₂.fine
          follows₂.mirrors (List.forall_mem_nil _)).bind fun _ w₃ t₃ _ _ follows₃ =>
            ih follows₃.fine follows₃.mirrors
              (Nat.lt_of_lt_of_le hid₂ follows₃.goes.size_sequences)
              ((follows₃.goes.stays id hid₂).trans hsource₂)

/-- What does not hold good any more is searched for again, whether or not it is still there. -/
theorem lookahead_tracks (fuel : Nat) {id : SequenceId} (hid : id ∈ there) :
    Tracks strict vetted there (Probed.lookahead (probe strict) call reader fuel id)
      (Sequence.lookahead call' reader' fuel id) := by
  intro w t fine mirrors hthere
  have hid := hthere id hid
  have hdropped : Fine { w with store := w.store.setPending id none } :=
    fine.setPending fun _ _ _ h => nomatch h
  -- the search after what is there has been dropped
  have hseek : ∀ {t' : Store}, Mirrors strict (w.store.setPending id none) t' →
      Tracked strict vetted w
        (Probed.seek (probe strict) call reader id (w.store.sequence id) fuel
          { w with store := w.store.setPending id none })
        (Sequence.seek call' reader' id (w.store.sequence id) fuel t') := by
    intro t' mirrors'
    refine (seek_tracked hcall hreader fuel hdropped mirrors' ?_ ?_).after
      ⟨.setPending id none, rfl, hdropped, mirrors'⟩
    · rw [Store.size_sequences_setPending]
      exact hid
    · rw [Store.sequence_setPending_self hid]
  rw [Probed.lookahead, Sequence.lookahead, quiet_view_bind, Action.view_bind, quiet_view_bind,
    Action.view_bind, mirrors.source_eq, mirrors.sourceOf_eq]
  rcases mirrors.sequence id with hsame | ⟨-, ⟨stamp, v, hpending, hlt⟩, hsame⟩
  · rw [hsame]
    cases hpending : (w.store.sequence id).pending with
    | none => exact seek_tracked hcall hreader fuel fine mirrors hid rfl
    | some found =>
      obtain ⟨stamp, v⟩ := found
      dsimp only
      split
      · exact .value (.refl fine mirrors)
      · exact hseek (mirrors.setPending id none)
  · rw [hsame, hpending]
    dsimp only
    rw [if_neg (Nat.ne_of_lt hlt), Sequence.seek_pending]
    exact hseek (mirrors.drop (by rw [hsame]))

/-- Consuming a raw element of a sequence. -/
theorem advance_tracks (id : SequenceId) :
    Tracks strict vetted there (Probed.advance (probe strict) call reader id)
      (Sequence.advance call' reader' id) := by
  intro w t fine mirrors hthere
  rw [Probed.advance, Sequence.advance, quiet_view_bind, Action.view_bind, mirrors.sourceOf_eq,
    mirrors.position_eq]
  exact raw_tracks hcall hreader _ _ _ w t fine mirrors hthere

end Recorded

end Abacus
