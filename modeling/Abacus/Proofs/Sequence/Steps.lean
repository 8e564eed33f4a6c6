import Abacus.Proofs.Run.Steps
import Abacus.Sequence.Cursor

/-!
# Reading in steps

Reading a sequence runs functions of the program between its own changes of the store. If calls are
safe, so is everything that is done with sequences, whichever of them draw on which.

**The law** (`Reader.ofDepth_safe`): safe calls make safe readers, however deeply sequences take from
sequences.
-/

namespace Abacus

variable {free : ScopeId → Prop} {s : Store}

/-- A call is safe if what is called and the arguments refer only to parts that the store has. -/
def Call.Safe (free : ScopeId → Prop) (call : Call) : Prop :=
  ∀ {s : Store} {f : Value} {arguments : List Value} {position : Position}, f.Fits s →
    Value.AllFit s arguments → Action.Safe free (call f arguments position) Value.Fits s

/-- A reader is safe on the sequences that the store has. -/
structure Reader.Safe (free : ScopeId → Prop) (reader : Reader) : Prop where
  atEnd : ∀ {s : Store} {id : SequenceId}, id.index < s.sequences.size →
    Action.Safe free (reader.atEnd id) Action.Any s
  next : ∀ {s : Store} {id : SequenceId} {peek : Bool}, id.index < s.sequences.size →
    Action.Safe free (reader.next id peek) Value.Fits s

/-- The value, if there is one, refers only to parts that the store has. -/
def Value.OptionFits (s : Store) (value : Option Value) : Prop := ∀ v ∈ value, v.Fits s

/-- A value that fits, if there is one, fits when the store has grown. -/
theorem Value.OptionFits.grown {s' : Store} {value : Option Value} (h : Value.OptionFits s value)
    (grown : s.Grown s') : Value.OptionFits s' value :=
  fun v hv => (h v hv).grown grown

/-- A value that is there fits as it is. -/
theorem Value.optionFits_some {v : Value} : Value.OptionFits s (some v) ↔ v.Fits s := by
  simp [Value.OptionFits]

theorem Value.optionFits_none : Value.OptionFits s none := fun _ hv => nomatch hv

theorem Value.allFit_singleton {v : Value} (h : v.Fits s) : Value.AllFit s [v] := by
  simpa [Value.AllFit] using h

theorem Value.allFit_pair {v w : Value} (hv : v.Fits s) (hw : w.Fits s) :
    Value.AllFit s [v, w] := by
  simp [Value.AllFit, hv, hw]

open Abacus.Action (Any Safe)

variable {call : Call} {reader : Reader}

/-! ## Generators -/

namespace Generator

/-- A generator tells its end by its own state or by sequences that the store has. -/
theorem atEnd_safe (hreader : reader.Safe free) {g : Generator} (hg : g.Fits s) :
    Safe free (g.atEnd reader) Any s := by
  cases g with
  | index f place limit cached position => exact Safe.pure trivial
  | iterate f upcoming previous position => exact Safe.pure trivial
  | range current stop step position => exact Safe.ofNumeric
  | vector items place position =>
    exact Safe.view fun _ => Safe.pure trivial
  | zip left right =>
    refine (hreader.atEnd hg.1).bind fun {done s'} hgrown _ => ?_
    cases done with
    | true => exact Safe.pure trivial
    | false => exact hreader.atEnd (Nat.lt_of_lt_of_le hg.2 hgrown.sequences)
  | take sequence remaining =>
    rw [atEnd]
    by_cases hremaining : remaining = 0
    · rw [if_pos hremaining]
      exact Safe.pure trivial
    · rw [if_neg hremaining]
      exact hreader.atEnd hg

/-- What a generator gives, and what it becomes, refers only to parts that the store has. -/
theorem next_safe (hcall : call.Safe free) (hreader : reader.Safe free) (peek : Bool) {g : Generator}
    (hg : g.Fits s) :
    Safe free (g.next call reader peek) (fun s' r => r.1.Fits s' ∧ r.2.Fits s') s := by
  cases g with
  | index f place limit cached position =>
    rw [next]
    refine (atEnd_safe hreader hg).bind fun {done s₁} hgrown _ => Safe.guarded fun _ => ?_
    replace hg := hg.grown hgrown
    have hrest : ∀ {value s'}, s₁.Grown s' → value.Fits s' → Safe free (Pure.pure (value,
        if peek then Generator.index f place limit (some value) position
        else .index f (place + 1) limit none position))
        (fun s' r => r.1.Fits s' ∧ r.2.Fits s') s' := by
      intro value s' hgrown hvalue
      refine Safe.pure ⟨hvalue, ?_⟩
      cases peek with
      | true => exact ⟨hg.1.grown hgrown, Value.optionFits_some.mpr hvalue⟩
      | false => exact ⟨hg.1.grown hgrown, Value.optionFits_none⟩
    cases cached with
    | some value => exact hrest (.refl _) (hg.2 value rfl)
    | none => exact (hcall hg.1 (Value.allFit_singleton (v := .ofNat place) trivial)).bind hrest
  | iterate f upcoming previous position =>
    rw [next.eq_def]
    dsimp only
    have hrest : ∀ {value s'}, s.Grown s' → value.Fits s' → Safe free (Pure.pure (value,
        if peek then Generator.iterate f (some value) previous position
        else .iterate f none (some value) position))
        (fun s' r => r.1.Fits s' ∧ r.2.Fits s') s' := by
      intro value s' hgrown hvalue
      refine Safe.pure ⟨hvalue, ?_⟩
      have hg := hg.grown hgrown
      cases peek with
      | true => exact ⟨hg.1, Value.optionFits_some.mpr hvalue, hg.2.2⟩
      | false => exact ⟨hg.1, Value.optionFits_none, Value.optionFits_some.mpr hvalue⟩
    cases upcoming with
    | some value => exact hrest (.refl s) (hg.2.1 value rfl)
    | none =>
      cases previous with
      | some value => exact (hcall hg.1 (Value.allFit_singleton (hg.2.2 value rfl))).bind hrest
      | none => exact Safe.fail_bind
  | range current stop step position =>
    rw [next]
    refine (atEnd_safe hreader hg).bind fun _ _ => Safe.guarded fun _ => ?_
    exact Safe.pure ⟨trivial, trivial⟩
  | vector items place position =>
    rw [next]
    refine Safe.view fun sound => ?_
    cases hvalue : (s.vector items)[place]? with
    | some value => exact Safe.pure ⟨sound.elements (Array.mem_of_getElem? hvalue), hg⟩
    | none => exact Safe.fail
  | zip left right =>
    rw [next]
    refine (hreader.next hg.1).bind fun {a s₁} hgrown ha => ?_
    replace hg := Fits.grown (g := .zip left right) hg hgrown
    refine (hreader.next hg.2).bind fun {b s₂} hgrown hb => ?_
    replace hg := Fits.grown (g := .zip left right) hg hgrown
    refine (Safe.newVector (Value.allFit_pair (ha.grown hgrown) hb)).bind fun {v s₃} hgrown hv => ?_
    exact Safe.pure ⟨hv, Fits.grown (g := .zip left right) hg hgrown⟩
  | take sequence remaining =>
    rw [next]
    by_cases hremaining : remaining = 0
    · rw [if_pos hremaining]
      exact Safe.view fun _ => Safe.fail_bind
    · rw [if_neg hremaining]
      refine (hreader.next hg).bind fun {value s₁} hgrown hvalue => ?_
      exact Safe.pure ⟨hvalue, Nat.lt_of_lt_of_le hg hgrown.sequences⟩

end Generator

/-! ## Sequences -/

namespace Sequence

/-- A sequence that has not been read has no element waiting. -/
theorem fits_unread {source : SourceId} {transformers : List Transformer} {position : Position}
    (hsource : source.index < s.sources.size) (htransformers : ∀ t ∈ transformers, t.Fits s) :
    Sequence.Fits s ⟨source, transformers, none, position⟩ where
  source := hsource
  transformers := htransformers
  pending _ h := by cases h

/-- A new sequence is over a new source. -/
theorem create_safe {g : Generator} {position : Position} (hg : g.Fits s) :
    Safe free (create g position) Value.Fits s := by
  refine Safe.bind (P := fun s' (id : SourceId) => id.index < s'.sources.size)
    (Safe.create (fun _ => .addSource hg) fun _ => by simp [Store.addSource]) fun _ hsource => ?_
  refine Safe.bind (P := fun s' (id : SequenceId) => id.index < s'.sequences.size)
    (Safe.create (fun _ => .addSequence (fits_unread hsource fun _ ht => by cases ht))
      fun _ => by simp [Store.addSequence]) fun _ hid => Safe.pure hid

/-- A sequence that is derived shares its source with the one it is derived from. -/
theorem derive_safe {id : SequenceId} {t : Transformer} (hid : id.index < s.sequences.size)
    (ht : t.Fits s) : Safe free (derive id t) Value.Fits s := by
  refine Safe.view fun sound => ?_
  have hbase := sound.sequence hid
  have htransformers : ∀ u ∈ (s.sequence id).transformers ++ [t], u.Fits s := by
    intro u hu
    rcases List.mem_append.mp hu with hu | hu
    · exact hbase.transformers u hu
    · exact List.mem_singleton.mp hu ▸ ht
  refine Safe.bind (P := fun s' (id : SequenceId) => id.index < s'.sequences.size)
    (Safe.create (fun _ => .addSequence (fits_unread hbase.source htransformers))
      fun _ => by simp [Store.addSequence]) fun _ hid => Safe.pure hid

/-- Closing a source for an action and opening it again are steps. -/
theorem holding_safe {α : Type} {good : Store → α → Prop} {id : SourceId} {x : Action α}
    (h : ∀ {s'}, s.Grown s' → Safe free x good s')
    (hgood : ∀ {a s₁ s₂}, s₁.Grown s₂ → good s₁ a → good s₂ a) :
    Safe free (holding id x) good s := by
  intro ready
  have hclose : s.Path free (s.modifySource id ({ · with busy := true })) := .single .hold
  have hx := (h hclose.grown (ready.path hclose)).after hclose
  unfold holding
  cases hresult : x (s.modifySource id ({ · with busy := true })) with
  | ok a s' =>
    rw [hresult] at hx
    cases hx with
    | value hpath ha =>
      have hopen : s'.Step free (s'.modifySource id ({ · with busy := false })) := .hold
      exact .value (hpath.tail hopen) (hgood hopen.grown ha)
  | error e s' =>
    rw [hresult] at hx
    cases hx with
    | interruption hpath => exact .interruption (hpath.tail .hold)

/-- To ask a source for its next element keeps it in the store, busy in between and idle afterwards.
-/
theorem raw_safe (hcall : call.Safe free) (hreader : reader.Safe free) {peek : Bool} {id : SourceId}
    {position : Position} (hid : id.index < s.sources.size) :
    Safe free (raw call reader peek id position) Value.OptionFits s := by
  unfold raw
  refine Safe.view fun sound => Safe.guarded fun _ => ?_
  have hg := sound.generator hid
  refine holding_safe (fun {s₂} hgrown => ?_) fun hgrown h => h.grown hgrown
  replace hg := hg.grown hgrown
  refine (Generator.atEnd_safe hreader hg).bind fun {done s₃} hgrown _ => ?_
  replace hg := hg.grown hgrown
  cases done with
  | true => exact Safe.pure Value.optionFits_none
  | false =>
    refine (Generator.next_safe hcall hreader peek hg).bind fun {r s₄} hgrown hr => ?_
    obtain ⟨hvalue, hgenerator⟩ := hr
    refine Safe.bind (P := fun s' _ => r.1.Fits s') ?_ fun _ h =>
      Safe.pure (Value.optionFits_some.mpr h)
    intro ready
    have hstep : s₄.Step free (s₄.modifySource id fun source =>
        { source with
          generator := r.2
          advanced := if peek then source.advanced else source.advanced + 1 }) :=
      .advance (fun advanced => if peek then advanced else advanced + 1) hgenerator
    exact .value (.single hstep) (hvalue.grown hstep.grown)

/-- To send a value through the functions of a sequence. -/
theorem transform_safe (hcall : call.Safe free) (position : Position) {ts : List Transformer}
    {value : Value} (hts : ∀ t ∈ ts, t.Fits s) (hvalue : value.Fits s) :
    Safe free (transform call position ts value) Value.OptionFits s := by
  induction ts generalizing s value with
  | nil => exact Safe.pure (Value.optionFits_some.mpr hvalue)
  | cons t rest ih =>
    have ht := hts t List.mem_cons_self
    have hrest : ∀ {s'}, s.Grown s' → ∀ t ∈ rest, t.Fits s' :=
      fun hgrown t ht => (hts t (List.mem_cons_of_mem _ ht)).grown hgrown
    cases t with
    | map f =>
      exact (hcall ht (Value.allFit_singleton hvalue)).bind fun hgrown h => ih (hrest hgrown) h
    | filter predicate =>
      refine (hcall ht (Value.allFit_singleton hvalue)).bind fun hgrown _ => ?_
      split
      · exact ih (hrest hgrown) (hvalue.grown hgrown)
      · exact Safe.pure Value.optionFits_none
      · exact Safe.fail

/-- Setting down what has been found is a step, and what is known of values stays known. -/
theorem setPending_safe {id : SequenceId} {found : Option (Nat × Value)}
    (h : ∀ pair ∈ found, pair.2.Fits s) :
    Safe free (modify (·.setPending id found) : Action PUnit)
      (fun s' _ => ∀ pair ∈ found, pair.2.Fits s') s := by
  intro _
  have hstep : s.Step free (s.setPending id found) := .setPending h
  exact .value (.single hstep) fun pair hpair => (h pair hpair).grown hstep.grown

/-- To ask until a value passes: by induction on the fuel. -/
theorem seek_safe (hcall : call.Safe free) (hreader : reader.Safe free) {id : SequenceId}
    {q : Sequence} (fuel : Nat) (hq : q.Fits s) :
    Safe free (seek call reader id q fuel) Value.OptionFits s := by
  induction fuel generalizing s with
  | zero => exact Safe.throw
  | succ fuel ih =>
    unfold seek
    refine Safe.view fun _ => ?_
    refine (raw_safe hcall hreader hq.source).bind fun {element s₂} hgrown helement => ?_
    replace hq := hq.grown hgrown
    cases element with
    | none => exact Safe.pure Value.optionFits_none
    | some element =>
      replace helement := Value.optionFits_some.mp helement
      refine (transform_safe hcall q.position hq.transformers helement).bind
        fun {found s₃} hgrown hfound => ?_
      replace hq := hq.grown hgrown
      cases found with
      | some value =>
        refine (setPending_safe ?_).bind fun _ h => Safe.pure ?_
        · simpa [Value.OptionFits] using hfound
        · simpa [Value.OptionFits] using h
      | none =>
        refine (raw_safe hcall hreader hq.source).bind fun hgrown _ => ?_
        exact ih (hq.grown hgrown)

/-- To look ahead notes what was found. -/
theorem lookahead_safe (hcall : call.Safe free) (hreader : reader.Safe free) (fuel : Nat)
    {id : SequenceId} (hid : id.index < s.sequences.size) :
    Safe free (lookahead call reader fuel id) Value.OptionFits s := by
  unfold lookahead
  refine Safe.view fun sound => Safe.view fun _ => ?_
  have hq := sound.sequence hid
  cases hpending : (s.sequence id).pending with
  | none => exact seek_safe hcall hreader fuel hq
  | some found =>
    obtain ⟨stamp, value⟩ := found
    dsimp only
    by_cases hstamp : stamp = (s.source (s.sequence id).source).advanced
    · rw [if_pos hstamp]
      exact Safe.pure (Value.optionFits_some.mpr (hq.pending _ hpending))
    · rw [if_neg hstamp]
      refine (setPending_safe fun _ h => by cases h).bind fun hgrown _ => ?_
      exact seek_safe hcall hreader fuel (hq.grown hgrown)

/-- To ask for the end is to look ahead. -/
theorem atEnd_safe (hcall : call.Safe free) (hreader : reader.Safe free) (fuel : Nat)
    {id : SequenceId} (hid : id.index < s.sequences.size) :
    Safe free (atEnd call reader fuel id) Any s :=
  (lookahead_safe hcall hreader fuel hid).bind fun _ _ => Safe.pure trivial

/-- To look at the next element. -/
theorem peek_safe (hcall : call.Safe free) (hreader : reader.Safe free) (fuel : Nat)
    {id : SequenceId} (position : Position) (hid : id.index < s.sequences.size) :
    Safe free (peek call reader fuel id position) Value.Fits s := by
  refine (lookahead_safe hcall hreader fuel hid).bind fun {found _} _ hfound => ?_
  cases found with
  | some value => exact Safe.pure (Value.optionFits_some.mp hfound)
  | none => exact Safe.fail

/-- To take it. -/
theorem next_safe (hcall : call.Safe free) (hreader : reader.Safe free) (fuel : Nat)
    {id : SequenceId} (position : Position) (hid : id.index < s.sequences.size) :
    Safe free (next call reader fuel id position) Value.Fits s := by
  refine (peek_safe hcall hreader fuel position hid).bind fun {value s₁} hgrown hvalue => ?_
  replace hid := Nat.lt_of_lt_of_le hid hgrown.sequences
  refine Safe.view fun sound => ?_
  refine (raw_safe hcall hreader (sound.sequence hid).source).bind fun {_ s₃} hgrown _ => ?_
  replace hvalue := hvalue.grown hgrown
  refine (setPending_safe fun _ h => by cases h).bind fun hgrown _ => ?_
  exact Safe.pure (hvalue.grown hgrown)

/-- To take elements and drop them: by induction on their number. -/
theorem skip_safe (hcall : call.Safe free) (hreader : reader.Safe free) (count : Nat)
    {id : SequenceId} (hid : id.index < s.sequences.size) :
    Safe free (skip call reader id count) Any s := by
  induction count generalizing s with
  | zero => exact Safe.pure trivial
  | succ count ih =>
    unfold skip
    refine Safe.view fun sound => ?_
    refine (raw_safe hcall hreader (sound.sequence hid).source).bind fun {found s₂} hgrown _ => ?_
    replace hid := Nat.lt_of_lt_of_le hid hgrown.sequences
    cases found with
    | some _ => exact ih hid
    | none => exact Safe.pure trivial

/-- Consuming a sequence keeps what each round keeps. -/
theorem foldAll_safe {σ : Type} {P : Store → σ → Prop} (hcall : call.Safe free)
    (hreader : reader.Safe free) (position : Position) {step : σ → Value → Action σ} (fuel : Nat)
    {id : SequenceId} {state : σ} (hid : id.index < s.sequences.size) (hstate : P s state)
    (hgood : ∀ {a s₁ s₂}, s₁.Grown s₂ → P s₁ a → P s₂ a)
    (hstep : ∀ {a v s'}, P s' a → v.Fits s' → Safe free (step a v) P s') :
    Safe free (foldAll call reader id position step fuel state) P s := by
  induction fuel generalizing s state with
  | zero => exact Safe.throw
  | succ fuel ih =>
    unfold foldAll
    refine (atEnd_safe hcall hreader _ hid).bind fun {done s₁} hgrown _ => ?_
    replace hid := Nat.lt_of_lt_of_le hid hgrown.sequences
    replace hstate := hgood hgrown hstate
    cases done with
    | true => exact Safe.pure hstate
    | false =>
      refine (next_safe hcall hreader _ position hid).bind fun {value s₂} hgrown hvalue => ?_
      replace hid := Nat.lt_of_lt_of_le hid hgrown.sequences
      refine (hstep (hgood hgrown hstate) hvalue).bind fun {state s₃} hgrown hstate => ?_
      exact ih (Nat.lt_of_lt_of_le hid hgrown.sequences) hstate

/-- To take all of them: by induction on the fuel. -/
theorem collect_safe (hcall : call.Safe free) (hreader : reader.Safe free) (fuel : Nat)
    {id : SequenceId} (hid : id.index < s.sequences.size) :
    Safe free (collect call reader fuel id) Value.AllFit s := by
  unfold collect
  refine Safe.view fun _ => ?_
  refine (foldAll_safe hcall hreader (s.sequence id).position fuel hid (P := Value.AllFit)
    (fun _ hv => by cases hv) (fun hgrown h => h.grown hgrown) fun {vs v s'} hvs hv => ?_).bind
    fun {vs _} _ hvs => Safe.pure fun v hv => hvs v (List.mem_reverse.mp hv)
  refine Safe.pure fun w hw => ?_
  rcases List.mem_cons.mp hw with rfl | hw
  · exact hv
  · exact hvs w hw

end Sequence

/-- **Safe calls make safe readers.** -/
theorem Reader.ofDepth_safe (hcall : call.Safe free) (depth : Nat) :
    (Reader.ofDepth call depth).Safe free := by
  induction depth with
  | zero => exact ⟨fun _ => Safe.throw, fun _ => Safe.throw⟩
  | succ depth ih =>
    refine ⟨fun hid => Sequence.atEnd_safe hcall ih depth hid, fun {s id peek} hid => ?_⟩
    cases peek with
    | true => exact Sequence.peek_safe hcall ih depth (s.sequence id).position hid
    | false => exact Sequence.next_safe hcall ih depth (s.sequence id).position hid

end Abacus
