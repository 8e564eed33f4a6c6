import Abacus.Proofs.Discipline.Rules
import Abacus.Sequence.Cursor

/-!
# Sequences under a discipline

A sequence remembers where it was built and reports its faults there, however much later it is read;
and it keeps the functions that it calls. So what a discipline asks of positions and of functions it
has to ask of sequences as they lie in the store.

**The law** (`Reader.ofDepth_obeys`): if calls obey a discipline, so does all reading.
-/

namespace Abacus

open Abacus.Action (Obeys Whatever)

variable {D : Discipline}

/-- A call obeys if what is called, the arguments and the position of the call are as the discipline
asks. -/
def Call.Obeys (D : Discipline) (call : Call) : Prop :=
  ∀ {f : Value} {arguments : List Value} {position : Position}, f.Under D →
    Value.AllUnder D arguments → D.place position →
    Action.Obeys D (call f arguments position) (Value.Under D)

/-- Readings of the sequences that a generator is made of obey the discipline. -/
structure Reader.Obeys (D : Discipline) (reader : Reader) : Prop where
  atEnd : ∀ id : SequenceId, Action.Obeys D (reader.atEnd id) Whatever
  next : ∀ (id : SequenceId) (peek : Bool), Action.Obeys D (reader.next id peek) (Value.Under D)

variable {call : Call} {reader : Reader}

/-! ## Generators -/

namespace Generator

/-- Whether a generator is at its end is told by its own state or by the sequences it is made of. -/
theorem atEnd_obeys (hreader : reader.Obeys D) {g : Generator} (hg : g.Under D) :
    Obeys D (g.atEnd reader) Whatever := by
  cases g with
  | index f place limit cached position => exact .pure trivial
  | iterate f upcoming previous position => exact .pure trivial
  | range current stop step position => exact .ofNumeric hg
  | vector items place position =>
    exact (Obeys.view (P := Whatever) fun _ => trivial).bind fun _ => .pure trivial
  | zip left right =>
    refine (hreader.atEnd left).bind fun {done} _ => ?_
    cases done with
    | true => exact .pure trivial
    | false => exact hreader.atEnd right
  | take sequence remaining =>
    rw [atEnd]
    split
    · exact .pure trivial
    · exact hreader.atEnd sequence

/-- What a generator gives, and what it becomes, is as the discipline asks. -/
theorem next_obeys (hcall : call.Obeys D) (hreader : reader.Obeys D) (peek : Bool) {g : Generator}
    (hg : g.Under D) :
    Obeys D (g.next call reader peek) (fun r => r.1.Under D ∧ r.2.Under D) := by
  cases g with
  | index f place limit cached position =>
    obtain ⟨hf, hcached, hposition⟩ := hg
    rw [next]
    have hindex : Generator.Under D (.index f place limit cached position) :=
      ⟨hf, hcached, hposition⟩
    refine (atEnd_obeys hreader hindex).bind fun _ => .guarded hposition fun _ => ?_
    have hrest : ∀ {value}, value.Under D → Obeys D (Pure.pure (value,
        if peek then Generator.index f place limit (some value) position
        else .index f (place + 1) limit none position))
        (fun r => r.1.Under D ∧ r.2.Under D) := by
      intro value hvalue
      refine .pure ⟨hvalue, ?_⟩
      cases peek with
      | true => exact ⟨hf, Value.optionUnder_some.mpr hvalue, hposition⟩
      | false => exact ⟨hf, Value.optionUnder_none, hposition⟩
    cases cached with
    | some value => exact hrest (Value.optionUnder_some.mp hcached)
    | none =>
      exact (hcall hf (Value.allUnder_singleton (v := .ofNat place) trivial) hposition).bind hrest
  | iterate f upcoming previous position =>
    obtain ⟨hf, hupcoming, hprevious, hposition, -⟩ := hg
    rw [next.eq_def]
    dsimp only
    have hrest : ∀ {value}, value.Under D → Obeys D (Pure.pure (value,
        if peek then Generator.iterate f (some value) previous position
        else .iterate f none (some value) position))
        (fun r => r.1.Under D ∧ r.2.Under D) := by
      intro value hvalue
      refine .pure ⟨hvalue, ?_⟩
      cases peek with
      | true =>
        exact ⟨hf, Value.optionUnder_some.mpr hvalue, hprevious, hposition, fun _ => .inl nofun⟩
      | false =>
        exact ⟨hf, Value.optionUnder_none, Value.optionUnder_some.mpr hvalue, hposition,
          fun _ => .inr nofun⟩
    cases upcoming with
    | some value => exact hrest (Value.optionUnder_some.mp hupcoming)
    | none =>
      cases previous with
      | some value =>
        exact (hcall hf (Value.allUnder_singleton (Value.optionUnder_some.mp hprevious))
          hposition).bind hrest
      | none => exact .fail_bind hposition
  | range current stop step position =>
    rw [next]
    refine (atEnd_obeys hreader (g := .range current stop step position) hg).bind fun _ => ?_
    exact .guarded hg fun _ => .pure ⟨trivial, hg⟩
  | vector items place position =>
    rw [next]
    refine (Obeys.view (P := fun xs => ∀ v ∈ xs, Value.Under D v) fun hs _ hv =>
      hs.elements hv).bind fun {xs} hxs => ?_
    cases hvalue : xs[place]? with
    | some value => exact .pure ⟨hxs _ (Array.mem_of_getElem? hvalue), hg⟩
    | none => exact .fail hg
  | zip left right =>
    rw [next]
    refine (hreader.next left peek).bind fun ha => (hreader.next right peek).bind fun hb => ?_
    exact (Obeys.newVector (Value.allUnder_pair ha hb)).bind fun hv => .pure ⟨hv, trivial⟩
  | take sequence remaining =>
    rw [next]
    split
    · exact (Obeys.view fun hs => (hs.sequence sequence).position).bind fun h => .fail_bind h
    · exact (hreader.next sequence peek).bind fun hv => .pure ⟨hv, trivial⟩

end Generator

/-! ## Sequences -/

namespace Sequence

/-- What is made is a sequence. -/
theorem create_makes {g : Generator} {position : Position} (hg : g.Under D)
    (hposition : D.place position) : Obeys D (create g position) fun v => ∃ id, v = .sequence id := by
  refine (Obeys.create (P := Whatever) fun hs => ⟨hs.addSource hg, trivial⟩).bind fun _ => ?_
  refine (Obeys.create (P := Whatever) fun hs => ⟨hs.addSequence ?_, trivial⟩).bind fun {id} _ =>
    .pure ⟨id, rfl⟩
  exact ⟨fun _ ht => (nomatch ht), fun _ hf => (nomatch hf), hposition⟩

/-- To make a source and a sequence over it. -/
theorem create_obeys {g : Generator} {position : Position} (hg : g.Under D)
    (hposition : D.place position) : Obeys D (create g position) (Value.Under D) := by
  refine (create_makes hg hposition).imp ?_
  rintro _ ⟨id, rfl⟩
  trivial

/-- To make a sequence over the source of another, with one more function to apply. -/
theorem derive_obeys {t : Transformer} (id : SequenceId) (ht : t.Under D) :
    Obeys D (derive id t) (Value.Under D) := by
  refine (Obeys.view fun hs => hs.sequence id).bind fun {base} hbase => ?_
  refine (Obeys.create (P := Whatever) fun hs => ⟨hs.addSequence ?_, trivial⟩).bind fun _ =>
    .pure trivial
  refine ⟨fun u hu => ?_, fun _ hf => (nomatch hf), hbase.position⟩
  rcases List.mem_append.mp hu with hu | hu
  · exact hbase.transformers u hu
  · exact List.mem_singleton.mp hu ▸ ht

/-- To hold a source while something else is done, and to let it go afterwards, keeps the generators
as they are. -/
theorem holding_obeys {α : Type} {good : α → Prop} {id : SourceId} {x : Action α}
    (h : Obeys D x good) : Obeys D (holding id x) good := by
  intro s hs
  have hx := h (s.modifySource id ({ · with busy := true })) (hs.modifySource fun h => h)
  unfold holding
  cases hresult : x (s.modifySource id ({ · with busy := true })) with
  | ok a s' =>
    rw [hresult] at hx
    cases hx with
    | value hs' ha => exact .value (hs'.modifySource fun h => h) ha
  | error e s' =>
    rw [hresult] at hx
    cases hx with
    | interruption hs' he => exact .interruption (hs'.modifySource fun h => h) he

/-- To ask a source for its next element calls the functions it keeps, or reads the sequences it is
made of; the element is as the discipline asks. -/
theorem raw_obeys (hcall : call.Obeys D) (hreader : reader.Obeys D) {peek : Bool} {id : SourceId}
    {position : Position} (hposition : D.place position) :
    Obeys D (raw call reader peek id position) (Value.OptionUnder D) := by
  unfold raw
  refine (Obeys.view (P := fun source => source.generator.Under D) fun hs =>
    hs.generator id).bind fun {source} hg => ?_
  refine .guarded hposition fun _ => holding_obeys ?_
  refine (Generator.atEnd_obeys hreader hg).bind fun {done} _ => ?_
  cases done with
  | true => exact .pure Value.optionUnder_none
  | false =>
    refine (Generator.next_obeys hcall hreader peek hg).bind fun {r} hr => ?_
    refine (Obeys.modify fun hs => hs.modifySource fun _ => hr.2).bind fun _ => ?_
    exact .pure (Value.optionUnder_some.mpr hr.1)

/-- To send an element through a sequence's functions. -/
theorem transform_obeys (hcall : call.Obeys D) {position : Position} (hposition : D.place position)
    {ts : List Transformer} {value : Value} (hts : ∀ t ∈ ts, t.Under D) (hvalue : value.Under D) :
    Obeys D (transform call position ts value) (Value.OptionUnder D) := by
  induction ts generalizing value with
  | nil => exact .pure (Value.optionUnder_some.mpr hvalue)
  | cons t rest ih =>
    have ht := hts t List.mem_cons_self
    replace ih {value : Value} (hvalue : value.Under D) :
        Obeys D (transform call position rest value) (Value.OptionUnder D) :=
      ih (fun t h => hts t (List.mem_cons_of_mem _ h)) hvalue
    cases t with
    | map f => exact (hcall ht (Value.allUnder_singleton hvalue) hposition).bind ih
    | filter predicate =>
      refine (hcall ht (Value.allUnder_singleton hvalue) hposition).bind fun _ => ?_
      split
      · exact ih hvalue
      · exact .pure Value.optionUnder_none
      · exact .fail hposition

/-- To note, or to forget, the value that a sequence looked ahead to. -/
theorem setPending_obeys {id : SequenceId} {found : Option (Nat × Value)}
    (h : ∀ pair ∈ found, pair.2.Under D) :
    Obeys D (modify (·.setPending id found) : Action PUnit) Whatever :=
  .modify fun hs => hs.setPending h

/-- To ask a source until an element passes all filters: by induction on the fuel. -/
theorem seek_obeys (hcall : call.Obeys D) (hreader : reader.Obeys D) (id : SequenceId)
    {q : Sequence} (fuel : Nat) (hq : q.Under D) :
    Obeys D (seek call reader id q fuel) (Value.OptionUnder D) := by
  induction fuel with
  | zero => exact .throw trivial
  | succ fuel ih =>
    refine (Obeys.view (P := Whatever) fun _ => trivial).bind fun {stamp} _ => ?_
    refine (raw_obeys hcall hreader hq.position).bind fun {element} helement => ?_
    cases element with
    | none => exact .pure Value.optionUnder_none
    | some element =>
      refine (transform_obeys hcall hq.position hq.transformers
        (Value.optionUnder_some.mp helement)).bind fun {found} hfound => ?_
      cases found with
      | some value =>
        refine (setPending_obeys fun pair hpair => ?_).bind fun _ => .pure hfound
        cases hpair
        exact Value.optionUnder_some.mp hfound
      | none => exact (raw_obeys hcall hreader hq.position).bind fun _ => ih

section Reading

variable (hcall : call.Obeys D) (hreader : reader.Obeys D)

include hcall hreader

/-- To look ahead gives the value noted before, or seeks one and notes it. -/
theorem lookahead_obeys (fuel : Nat) (id : SequenceId) :
    Obeys D (lookahead call reader fuel id) (Value.OptionUnder D) := by
  refine (Obeys.view fun hs => hs.sequence id).bind fun {q} hq => ?_
  refine (Obeys.view (P := Whatever) fun _ => trivial).bind fun {advanced} _ => ?_
  cases hpending : q.pending with
  | none => exact seek_obeys hcall hreader id fuel hq
  | some found =>
    obtain ⟨stamp, value⟩ := found
    dsimp only
    split
    · exact .pure (Value.optionUnder_some.mpr (hq.pending _ hpending))
    · exact (setPending_obeys fun _ h => by cases h).bind fun _ =>
        seek_obeys hcall hreader id fuel hq

/-- To ask a sequence whether it is at its end is to look ahead. -/
theorem atEnd_obeys (fuel : Nat) (id : SequenceId) :
    Obeys D (atEnd call reader fuel id) Whatever :=
  (lookahead_obeys hcall hreader fuel id).bind fun _ => .pure trivial

/-- To look at the next element, or to fail at the given place. -/
theorem peek_obeys (fuel : Nat) (id : SequenceId) {position : Position}
    (hposition : D.place position) : Obeys D (peek call reader fuel id position) (Value.Under D) := by
  refine (lookahead_obeys hcall hreader fuel id).bind fun {found} hfound => ?_
  cases found with
  | some value => exact .pure (Value.optionUnder_some.mp hfound)
  | none => exact .fail hposition

/-- To take the next element, or to fail at the given place. -/
theorem next_obeys (fuel : Nat) (id : SequenceId) {position : Position}
    (hposition : D.place position) : Obeys D (next call reader fuel id position) (Value.Under D) := by
  refine (peek_obeys hcall hreader fuel id hposition).bind fun hvalue => ?_
  refine (Obeys.view fun hs => hs.sequence id).bind fun {q} hq => ?_
  refine (raw_obeys hcall hreader hq.position).bind fun _ => ?_
  exact (setPending_obeys fun _ h => by cases h).bind fun _ => .pure hvalue

/-- To take elements and drop them: by induction on their number. -/
theorem skip_obeys (id : SequenceId) (count : Nat) :
    Obeys D (skip call reader id count) Whatever := by
  induction count with
  | zero => exact .pure trivial
  | succ count ih =>
    refine (Obeys.view fun hs => hs.sequence id).bind fun {q} hq => ?_
    refine (raw_obeys hcall hreader hq.position).bind fun {found} _ => ?_
    cases found with
    | some _ => exact ih
    | none => exact .pure trivial

/-- Consuming a sequence keeps what each round keeps. -/
theorem foldAll_obeys {σ : Type} {P : σ → Prop} (id : SequenceId) {position : Position}
    (hposition : D.place position) {step : σ → Value → Action σ} (fuel : Nat) {state : σ}
    (hstate : P state) (hstep : ∀ {a v}, P a → v.Under D → Obeys D (step a v) P) :
    Obeys D (foldAll call reader id position step fuel state) P := by
  induction fuel generalizing state with
  | zero => exact .throw trivial
  | succ fuel ih =>
    refine (atEnd_obeys hcall hreader _ id).bind fun {done} _ => ?_
    cases done with
    | true => exact .pure hstate
    | false =>
      refine (next_obeys hcall hreader _ id hposition).bind fun hvalue => ?_
      exact (hstep hstate hvalue).bind ih

/-- To take all elements: by induction on the fuel. -/
theorem collect_obeys (fuel : Nat) (id : SequenceId) :
    Obeys D (collect call reader fuel id) (Value.AllUnder D) := by
  refine (Obeys.view fun hs => (hs.sequence id).position).bind fun {position} hposition => ?_
  refine (foldAll_obeys hcall hreader id hposition fuel (P := Value.AllUnder D)
    Value.allUnder_nil fun hvs hv => .pure (Value.allUnder_cons.mpr ⟨hv, hvs⟩)).bind fun hvs => ?_
  exact .pure fun v hv => hvs v (List.mem_reverse.mp hv)

end Reading

end Sequence

/-- **If calls obey a discipline, so does all reading.** -/
theorem Reader.ofDepth_obeys (hcall : call.Obeys D) (depth : Nat) :
    (Reader.ofDepth call depth).Obeys D := by
  induction depth with
  | zero => exact ⟨fun _ => .throw trivial, fun _ _ => .throw trivial⟩
  | succ depth ih =>
    refine ⟨fun id => Sequence.atEnd_obeys hcall ih depth id, fun id peek s hs => ?_⟩
    have hposition := (hs.sequence id).position
    cases peek with
    | true => exact Sequence.peek_obeys hcall ih depth id hposition s hs
    | false => exact Sequence.next_obeys hcall ih depth id hposition s hs

end Abacus
