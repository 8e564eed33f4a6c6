import Abacus.Proofs.Sequence.Raw
import Abacus.Proofs.Sequence.Tracking

/-!
# Tracking sources

What reads a source is tracked if the calls are that it makes. While a generator is at work, what its
function does is tracked as anything else is, and it does nothing to the source of that generator; so
the record of the call, of its end and of the element that is consumed fits the generator that the
source goes on with.

**The laws** (`Recorded.raw_tracks`, `Recorded.raw_looked`): reading a source is tracked, and what has
been looked at is known to the generator.
-/

namespace Abacus

/-! ## Generators that have a call to make, and others -/

namespace Generator

variable {g : Generator} {call : Call} {reader : Reader} {peek : Bool}

theorem applies_of_due {due : Value × Value × Position} (h : g.due? = some due) :
    g.applies = true := by
  cases g with
  | index | iterate => rfl
  | _ => cases h

theorem applies_given (peek : Bool) (v : Value) : (g.given peek v).applies = g.applies := by
  cases g <;> cases peek <;> rfl

/-- What has been looked at is known. -/
theorem due?_given_peek (v : Value) : (g.given true v).due? = none := by
  cases g <;> rfl

/-- A generator that calls a function, and that has no call to make, gives what it knows. -/
theorem known?_of_pull {v : Value} {g' : Generator} {s s' : Store} (hdue : g.due? = none)
    (happlies : g.applies = true) (h : g.pull call reader peek s = .ok (some (v, g')) s') :
    g.known? = some v := by
  cases g with
  | index f place limit cached position =>
    cases hlimit : limit.any (· ≤ (place : Int)) with
    | true =>
      rw [pull_index_ended hlimit] at h
      cases h
    | false =>
      cases cached with
      | some u =>
        rw [pull_index_cached hlimit] at h
        cases h
        rfl
      | none =>
        rw [due?, hlimit] at hdue
        cases hdue
  | iterate f upcoming previous position =>
    cases upcoming with
    | some u =>
      cases h
      rfl
    | none =>
      cases previous with
      | some u => cases hdue
      | none => cases h
  | _ => cases happlies

end Generator

namespace Recorded

open Entry (consumedOf results Silent Lawful Orderly)
open Probed (quiet quiet_bind)

variable {strict vetted : Bool} {there : List SequenceId}

/-! ## Generators that make no call -/

/-- The next element of the generator of a source with the generator after it; none at the end. -/
def pull (strict : Bool) (call : Probed.Call Noted) (reader : Probed.Reader Noted) (peek : Bool)
    (id : SourceId) (generator : Generator) : Recorded (Option (Value × Generator)) := do
  if ← Probed.generatorAtEnd reader generator then return none
  return some (← Probed.generatorNext (probe strict) call reader peek id generator)

section Generators

variable {call : Probed.Call Noted} {call' : Call} {reader : Probed.Reader Noted} {reader' : Reader}
  (hreader : (tracking strict vetted).Reads reader reader')

include hreader

/-- What a generator that has no call to make gives is tracked. -/
theorem pull_tracks (hcall : call'.Obeys .any) (peek : Bool) (id : SourceId) {g : Generator}
    (hdue : g.due? = none) :
    Tracks strict vetted g.references (pull strict call reader peek id g)
      (g.pull call' reader' peek) := by
  refine (hreader.generatorAtEnd g).bind (Generator.atEnd_obeys hreader.obeys g.under_any)
    fun {done} _ => ?_
  cases done with
  | true => exact .pure none
  | false =>
    exact (hreader.generatorNext peek id hdue).bind
      (Generator.next_obeys hcall hreader.obeys peek g.under_any) fun _ => .pure _

end Generators

/-! ## A generator at work -/

section Raw

variable {w wd : Noted} {t td : Store} {id : SourceId} {mid new : List Entry} {peek : Bool}

/-- From one moment to the other the generator of a source was at work. What is still to be noted of
it is not noted yet. -/
structure Worked (strict : Bool) (id : SourceId) (w wd : Noted) (td : Store) (mid : List Entry) :
    Prop where
  held : ∃ wc, Held id w wc ∧ Goes wc wd
  fine : Fine wd
  mirrors : Mirrors strict wd.store td
  about : ∀ e ∈ mid, e.about? = some id
  orderly : Orderly (wd.entries ++ mid)

/-- While its generator is at work a source stays as it is. -/
theorem Worked.source (h : Worked strict id w wd td mid) (hid : id.index < w.store.sources.size) :
    wd.store.source id = { w.store.source id with busy := true } := by
  obtain ⟨wc, held, goes⟩ := h.held
  exact held.source_goes goes hid

theorem Worked.lt (h : Worked strict id w wd td mid) (hid : id.index < w.store.sources.size) :
    id.index < wd.store.sources.size := by
  obtain ⟨wc, held, goes⟩ := h.held
  refine Nat.lt_of_lt_of_le ?_ goes.size_sources
  rw [held.store, Store.size_sources_modifySource]
  exact hid

/-- The record tells of the generator that has been at work. -/
theorem Worked.accounts (h : Worked strict id w wd td mid) (hid : id.index < w.store.sources.size)
    (happlies : (w.store.source id).generator.applies = true) :
    Accounts wd.entries id (w.store.source id).generator := by
  have hsource := h.source hid
  have haccounts := h.fine.accounts id
  rw [hsource] at haccounts
  exact haccounts happlies

/-- **When the work is done**, the source is free again, and whatever else has been done, it follows
what was there before. -/
theorem Worked.follows (h : Worked strict id w wd td mid) (fine : Fine w)
    (hid : id.index < w.store.sources.size) {f : Source → Source}
    (habout : ∀ e ∈ new, e.about? = some id) (orderly : Orderly (wd.entries ++ (mid ++ new)))
    (hf : ∀ source, (f source).busy = false)
    (hreferences : (f { w.store.source id with busy := true }).generator.references =
      (w.store.source id).generator.references)
    (hadvanced : ∀ source, source.advanced ≤ (f source).advanced)
    (hdue : (f { w.store.source id with busy := true }).advanced = (w.store.source id).advanced →
      (w.store.source id).generator.due? = none →
      (f { w.store.source id with busy := true }).generator.due? = none)
    (haccounts : (f { w.store.source id with busy := true }).generator.applies = true →
      Accounts (wd.entries ++ (mid ++ new)) id
        (f { w.store.source id with busy := true }).generator) :
    Follows strict w ⟨wd.store.modifySource id f, wd.entries ++ (mid ++ new), w.running⟩
      (td.modifySource id f) := by
  have hall : ∀ e ∈ mid ++ new, e.about? = some id := fun e he =>
    (List.mem_append.mp he).elim (h.about e) (habout e)
  obtain ⟨wc, held, goes⟩ := h.held
  have hsource := held.source_goes goes hid
  refine ⟨held.release goes hall hf hadvanced hdue, rfl, ?_, h.mirrors.modifySource id hadvanced⟩
  refine h.fine.modifySource (fun e he => ⟨hall e he, h.lt hid⟩) orderly ?_ ?_ (hadvanced _) ?_ ?_
  · rw [hsource]
    exact haccounts
  · rw [hsource]
    exact hreferences
  · rw [hsource]
    exact hdue
  · -- the other sources whose functions are running have been spared
    intro other hother
    have hrunning := fine.running other hother
    have hne : other ≠ id := by
      rintro rfl
      exact Bool.false_ne_true (held.idle.symm.trans hrunning.1)
    have hstill : wc.store.Running other := by
      rw [Store.Running, held.source_of_ne hne]
      exact hrunning
    rw [Store.Running, Store.source_modifySource_of_ne hne]
    exact goes.running hstill

/-- The work was to no avail. -/
theorem Worked.released (h : Worked strict id w wd td mid) (fine : Fine w)
    (hid : id.index < w.store.sources.size) (hconsumed : consumedOf id mid = [])
    (hresults : results id mid = []) :
    Follows strict w ⟨Sequence.release wd.store id, wd.entries ++ mid, w.running⟩
      (Sequence.release td id) := by
  have hend := h.follows fine hid (f := ({ · with busy := false }))
    (List.forall_mem_nil fun e : Entry => e.about? = some id)
    (by rw [List.append_nil]; exact h.orderly) (fun _ => rfl) rfl (fun _ => Nat.le_refl _) (fun _ hdue => hdue) (fun happlies => by
      rw [List.append_nil]
      exact (h.accounts hid happlies).extend hconsumed hresults)
  rw [List.append_nil] at hend
  exact hend

/-- What is noted of an element that a generator gives. -/
def consuming (peek : Bool) (id : SourceId) (g : Generator) (v : Value) : List Entry :=
  if !peek && g.applies then [.consumed id v] else []

/-- The work gave an element. -/
theorem Worked.delivered (h : Worked strict id w wd td mid) (fine : Fine w)
    (hid : id.index < w.store.sources.size) {v : Value}
    (hgives : (w.store.source id).generator.applies = true →
      Gives (wd.entries ++ mid) id (w.store.source id).generator v) :
    Follows strict w
      ⟨Sequence.release (Sequence.deliver wd.store id ((w.store.source id).generator.given peek v) peek) id,
        wd.entries ++ (mid ++ consuming peek id (w.store.source id).generator v), w.running⟩
      (Sequence.release (Sequence.deliver td id ((w.store.source id).generator.given peek v) peek) id) := by
  rw [Sequence.release, Sequence.release, Sequence.deliver, Sequence.deliver,
    Store.modifySource_modifySource, Store.modifySource_modifySource]
  refine h.follows fine hid ?_ ?_ (fun _ => rfl) (Generator.references_given _ peek v) ?_ ?_ ?_
  · intro e he
    unfold consuming at he
    split at he
    · rw [List.mem_singleton.mp he]
      rfl
    · cases he
  · unfold consuming
    split
    · next hconsumes =>
      rw [Bool.and_eq_true] at hconsumes
      rw [← List.append_assoc]
      exact .snoc h.orderly (hgives hconsumes.2).lawful
    · rw [List.append_nil]
      exact h.orderly
  · intro source
    cases peek
    · exact Nat.le_succ _
    · exact Nat.le_refl _
  · intro hsame hdue
    cases peek
    · exact absurd hsame (Nat.succ_ne_self _)
    · exact Generator.due?_given_peek v
  · intro happlies
    have happlies : (w.store.source id).generator.applies = true := by
      rw [← Generator.applies_given peek v]
      exact happlies
    have hgiven := hgives happlies
    rw [consuming, happlies, ← List.append_assoc]
    cases peek
    · exact hgiven.consumed
    · rw [Bool.not_true, Bool.false_and, if_neg Bool.false_ne_true, List.append_nil]
      exact hgiven.looked

/-- How the generator of a source ends that is asked for its next element. -/
inductive Pulled (strict vetted peek : Bool) (id : SourceId) (w : Noted) (g : Generator) :
    EStateM.Result Interruption Noted (Option (Value × Generator)) →
    EStateM.Result Interruption Store (Option (Value × Generator)) → Prop
  | found {v : Value} {wd : Noted} {td : Store} {mid : List Entry} : Worked strict id w wd td mid →
    (g.applies = true → Gives (wd.entries ++ mid) id g v) →
    Pulled strict vetted peek id w g
      (.ok (some (v, g.given peek v)) ⟨wd.store, wd.entries ++ mid, w.running⟩)
      (.ok (some (v, g.given peek v)) td)
  | ended {wd : Noted} {td : Store} {mid : List Entry} : Worked strict id w wd td mid →
    consumedOf id mid = [] → results id mid = [] →
    Pulled strict vetted peek id w g (.ok none ⟨wd.store, wd.entries ++ mid, w.running⟩) (.ok none td)
  | failed {e : Interruption} {wd : Noted} {td : Store} {mid : List Entry} :
    Worked strict id w wd td mid → consumedOf id mid = [] → results id mid = [] →
    Pulled strict vetted peek id w g (.error e ⟨wd.store, wd.entries ++ mid, w.running⟩) (.error e td)
  | strayed {w' : Noted} {outcome : EStateM.Result Interruption Store (Option (Value × Generator))} :
    .strayed ∈ w'.entries → (vetted = true → ∃ t', outcome = .error .misapplied t' ∧ ¬ t'.Rooted) →
    Pulled strict vetted peek id w g (.error .misapplied w') outcome

/-- A source whose generator is asked. -/
def engaged (w : Noted) (id : SourceId) : Noted := { w with store := Sequence.engage w.store id }

variable {call : Probed.Call Noted} {call' : Call} {reader : Probed.Reader Noted} {reader' : Reader}

/-- A generator that has a call to make makes it; what is noted is that, and how it ends. -/
theorem pull_of_due {g : Generator} {f argument : Value} {position : Position}
    (hdue : g.due? = some (f, argument, position)) :
    pull strict call reader peek id g w =
      match call f [argument] position
        ⟨w.store, w.entries ++ [.called id f argument], id :: w.running⟩ with
      | .ok v wd => .ok (some (v, g.given peek v))
        ⟨wd.store, wd.entries ++ [.ended id argument (.ok v)], w.running⟩
      | .error e wd =>
        .error e ⟨wd.store, wd.entries ++ [.ended id argument (.error e)], w.running⟩ := by
  have hpull : pull strict call reader peek id g = do
      let v ← applying id f argument (call f [argument] position)
      return some (v, g.given peek v) := by
    rw [pull, Probed.generatorAtEnd_of_due hdue, Probed.generatorNext_of_due hdue]
    simp only [pure_bind, bind_assoc, Bool.false_eq_true, if_false]
    rfl
  rw [hpull]
  show EStateM.bind (fun w => noting _ (during id (call f [argument] position))
    { w with entries := w.entries ++ [.called id f argument] }) _ w = _
  simp only [EStateM.bind, noting, during]
  cases call f [argument] position ⟨w.store, w.entries ++ [.called id f argument], id :: w.running⟩ <;> rfl

/-- A source whose generator goes to work is one that is at work. -/
theorem Fine.engaged (fine : Fine w) (idle : (w.store.source id).busy = false) :
    Fine (engaged w id) := by
  have hrunning : ∀ other ∈ w.running, (Sequence.engage w.store id).Running other := by
    intro other hother
    have hbusy := fine.running other hother
    have hne : other ≠ id := by
      rintro rfl
      exact Bool.false_ne_true (idle.symm.trans hbusy.1)
    rw [Store.Running, Sequence.engage, Store.source_modifySource_of_ne hne]
    exact hbusy
  have hfine : Fine ⟨Sequence.engage w.store id, w.entries ++ [], w.running⟩ :=
    fine.modifySource (List.forall_mem_nil _) (by rw [List.append_nil]; exact fine.orderly)
      (fun happlies => by rw [List.append_nil]; exact fine.accounts id happlies) rfl (Nat.le_refl _)
      (fun _ hdue => hdue) hrunning
  rw [List.append_nil] at hfine
  exact hfine

/-- A generator that makes no call has been at work. -/
theorem Follows.worked (follows : Follows strict (engaged w id) wd td)
    (idle : (w.store.source id).busy = false) : Worked strict id w wd td [] where
  held :=
    ⟨engaged w id, ⟨idle, rfl, [], (List.append_nil _).symm, List.forall_mem_nil _⟩, follows.goes⟩
  fine := follows.fine
  mirrors := follows.mirrors
  about := List.forall_mem_nil _
  orderly := by
    rw [List.append_nil]
    exact follows.fine.orderly

/-- Of such work nothing is still to be noted. -/
theorem Follows.eq_noted (follows : Follows strict (engaged w id) wd td) :
    wd = ⟨wd.store, wd.entries ++ [], w.running⟩ := by
  rw [List.append_nil, ← show wd.running = w.running from follows.running]

section Pull

variable (hcall : (tracking strict vetted).Calls call call')
  (hreader : (tracking strict vetted).Reads reader reader')
  (fine : Fine w) (mirrors : Mirrors strict w.store t) (idle : (w.store.source id).busy = false)

include fine mirrors idle hcall

include hreader in
/-- A generator that has no call to make gives what it knows, or what it takes from sequences. -/
theorem pulled_of_not_due (hdue : (w.store.source id).generator.due? = none) :
    Pulled strict vetted peek id w (w.store.source id).generator
      (pull strict call reader peek id (w.store.source id).generator (engaged w id))
      ((w.store.source id).generator.pull call' reader' peek (Sequence.engage t id)) := by
  have htracks : Tracks strict vetted _ (pull strict call reader peek id _) _ :=
    pull_tracks hreader hcall.obeys peek id hdue
  have hend := htracks _ _ (fine.engaged idle) (mirrors.modifySource id fun _ => Nat.le_refl _)
    (fine.linked id)
  revert hend
  unfold Sequence.engage
  generalize pull strict call reader peek id _ (engaged w id) = seen
  generalize hresult : Generator.pull call' reader' peek _ _ = outcome
  intro hend
  cases hend with
  | @value found wd td follows =>
    have hworked := follows.worked idle
    cases found with
    | none =>
      rw [follows.eq_noted]
      exact .ended hworked rfl rfl
    | some found =>
      obtain ⟨v, g⟩ := found
      obtain rfl := Generator.eq_given_of_pull hresult
      rw [follows.eq_noted]
      refine .found hworked fun happlies => ?_
      have hlt : id.index < w.store.sources.size := Store.exists_of_applies happlies
      rw [List.append_nil]
      exact (hworked.accounts hlt happlies).gives_known (Generator.known?_of_pull hdue happlies hresult)
  | interruption follows =>
    rw [follows.eq_noted]
    exact .failed (follows.worked idle) rfl rfl
  | strayed hmem hvetted => exact .strayed hmem hvetted

/-- A generator that has a call to make makes it while its source is at work. -/
theorem pulled_of_due {f argument : Value} {position : Position}
    (hdue : (w.store.source id).generator.due? = some (f, argument, position)) :
    Pulled strict vetted peek id w (w.store.source id).generator
      (pull strict call reader peek id (w.store.source id).generator (engaged w id))
      ((w.store.source id).generator.pull call' reader' peek (Sequence.engage t id)) := by
  have happlies := Generator.applies_of_due hdue
  have hid := Store.exists_of_applies happlies
  have haccounts := fine.accounts id happlies
  obtain ⟨origin, hbuilt, hf, -, hconsumed, hargument⟩ := haccounts.due hdue
  -- the store and the record when the function is called
  let wc : Noted := ⟨(engaged w id).store, (engaged w id).entries ++ [.called id f argument],
    id :: (engaged w id).running⟩
  have habout : ∀ e ∈ [Entry.called id f argument], e.about? = some id := by
    intro e he
    rw [List.mem_singleton.mp he]
    rfl
  have held : Held id w wc := ⟨idle, rfl, _, rfl, habout⟩
  have finec : Fine wc := by
    refine fine.modifySource (fun e he => ⟨habout e he, hid⟩)
      (.snoc fine.orderly ⟨origin, hbuilt, hf, hconsumed, hargument⟩)
      (fun _ => haccounts.extend rfl rfl) rfl (Nat.le_refl _) (fun _ hdue => hdue) ?_
    intro other hother
    rcases List.mem_cons.mp hother with rfl | hother
    · rw [Store.Running, Store.source_modifySource_self hid]
      exact ⟨rfl, by rw [hdue]; exact Option.some_ne_none _⟩
    · exact (fine.engaged idle).running other hother
  have hcalled : Tracks strict vetted [] (call f [argument] position) (call' f [argument] position) :=
    hcall.ties f.under_any (Value.allUnder_any [argument])
  have hend := hcalled wc (Sequence.engage t id) finec
    (mirrors.modifySource id fun _ => Nat.le_refl _) (List.forall_mem_nil _)
  -- what is noted as the call ends
  have hended : ∀ {wd : Noted} {td : Store} (result : Except Interruption Value),
      Follows strict wc wd td → Worked strict id w wd td [.ended id argument result] := by
    intro wd td result follows
    obtain ⟨inner, hinner, hsilent⟩ := follows.goes.entries
    refine ⟨⟨wc, held, follows.goes⟩, follows.fine, follows.mirrors, ?_,
      .snoc follows.fine.orderly ?_⟩
    · intro e he
      rw [List.mem_singleton.mp he]
      rfl
    · exact ⟨f, w.entries, inner, by rw [hinner, List.append_assoc]; rfl,
        hsilent id (congrArg Source.busy (held.source hid))⟩
  rw [pull_of_due hdue, Generator.pull_of_due hdue]
  show Pulled _ _ _ _ _ _ _ (EStateM.bind (call' f [argument] position) _ (Sequence.engage t id))
  unfold EStateM.bind
  revert hend
  unfold wc
  generalize call f [argument] position _ = seen
  generalize call' f [argument] position _ = outcome
  intro hend
  cases hend with
  | @value v wd td follows =>
    have hworked := hended (.ok v) follows
    exact .found hworked fun _ => (hworked.accounts hid happlies).gives_called hdue
  | @interruption e wd td follows => exact .failed (hended (.error e) follows) rfl rfl
  | strayed hmem hvetted =>
    refine .strayed (List.mem_append_left _ hmem) fun h => ?_
    obtain ⟨t', rfl, hrooted⟩ := hvetted h
    exact ⟨t', rfl, hrooted⟩

include hreader in
/-- A generator at work ends as it ends in an ordinary run. -/
theorem pulled : Pulled strict vetted peek id w (w.store.source id).generator
    (pull strict call reader peek id (w.store.source id).generator (engaged w id))
    ((w.store.source id).generator.pull call' reader' peek (Sequence.engage t id)) := by
  cases hdue : (w.store.source id).generator.due? with
  | none => exact pulled_of_not_due hcall hreader fine mirrors idle hdue
  | some due => exact pulled_of_due hcall fine mirrors idle hdue

end Pull

/-! ## Raw elements -/

variable {p : Position}

/-- A source that is at work refuses to be read. -/
theorem raw_busy (busy : (w.store.source id).busy = true) :
    Probed.raw (probe strict) call reader peek id p w =
      .error (.fault ⟨.reentrantSequence, p⟩) w := by
  rw [Probed.raw, quiet_view_bind, busy]
  rfl

/-- What is noted of an element that is given. -/
theorem giving_apply (g : Generator) (v : Value) :
    giving peek id g v w = .ok () ⟨w.store, w.entries ++ consuming peek id g v, w.running⟩ := by
  unfold giving consuming
  split
  · rfl
  · rw [List.append_nil]
    rfl

/-- While an action runs, the source refuses to be read. -/
theorem holding_apply {α : Type} (x : Recorded α) :
    Probed.holding id x w =
      match x (engaged w id) with
      | .ok a w' => .ok a { w' with store := Sequence.release w'.store id }
      | .error e w' => .error e { w' with store := Sequence.release w'.store id } := by
  unfold Probed.holding
  dsimp only [Carries.store, Carries.put]
  rw [show { w with store := w.store.modifySource id ({ · with busy := true }) } = engaged w id from rfl]
  cases x (engaged w id) <;> rfl

/-- A source that is not at work asks its generator. -/
theorem raw_idle (idle : (w.store.source id).busy = false) :
    Probed.raw (probe strict) call reader peek id p w =
      match pull strict call reader peek id (w.store.source id).generator (engaged w id) with
      | .ok none w' => .ok none { w' with store := Sequence.release w'.store id }
      | .ok (some (v, g)) w' => .ok (some v)
        ⟨Sequence.release (Sequence.deliver w'.store id g peek) id,
          w'.entries ++ consuming peek id (w.store.source id).generator v, w'.running⟩
      | .error e w' => .error e { w' with store := Sequence.release w'.store id } := by
  have hbody : Probed.raw (probe strict) call reader peek id p w = Probed.holding id (do
      let found ← pull strict call reader peek id (w.store.source id).generator
      found.elim (pure none) fun found => do
        giving peek id (w.store.source id).generator found.1
        quiet (modify (Sequence.deliver · id found.2 peek))
        return some found.1) w := by
    rw [Probed.raw, quiet_view_bind, idle]
    simp only [pull, bind_assoc]
    show Probed.holding id _ w = Probed.holding id _ w
    congr 2
    funext atEnd
    cases atEnd with
    | true => rfl
    | false => simp only [Bool.false_eq_true, if_false, bind_assoc, pure_bind]; rfl
  rw [hbody, holding_apply]
  cases hpull : pull strict call reader peek id (w.store.source id).generator (engaged w id) with
  | error e w' => rw [bind_error hpull]
  | ok found w' =>
    rw [bind_ok hpull]
    cases found with
    | none => rfl
    | some found =>
      dsimp only [Option.elim]
      rw [bind_ok (giving_apply _ found.1)]
      rfl

theorem pull_vector (items : VectorId) (k : Nat) :
    pull strict call reader peek id (.vector items k p) w =
      .ok ((w.store.vector items)[k]?.map fun v =>
        (v, .vector items (if peek then k else k + 1) p)) w := by
  have hpull : pull strict call reader peek id (.vector items k p) =
      quiet (Generator.pull Probed.idle.call Probed.idle.reader peek (.vector items k p)) := by
    rw [Generator.pull, quiet_bind]
    refine congrArg (_ >>= ·) (funext fun done => ?_)
    cases done with
    | true => rfl
    | false => exact (quiet_bind (Generator.next Probed.idle.call Probed.idle.reader peek _) (pure ∘ some)).symm
  rw [hpull, quiet_apply, Generator.pull_vector]

/-- A source that is not there is taken for one over a vector, and nothing comes of it. -/
theorem raw_absent (hid : w.store.sources.size ≤ id.index) :
    Probed.raw (probe strict) call reader peek id p w = .ok (w.store.vector ⟨0⟩)[0]? w := by
  have hsame : ∀ f, w.store.modifySource id f = w.store := Store.modifySource_of_le hid
  have hsource := Store.source_of_le hid
  rw [raw_idle (by rw [hsource]), hsource]
  rw [show engaged w id = w by rw [engaged, Sequence.engage, hsame], pull_vector]
  cases (w.store.vector ⟨0⟩)[0]? with
  | none => simp only [Option.map_none, Sequence.release, hsame]
  | some v =>
    simp only [Option.map_some, Sequence.release, Sequence.deliver, hsame, consuming,
      Generator.applies, Bool.and_false, Bool.false_eq_true, if_false, List.append_nil]

theorem raw_absent' {s : Store} (hid : s.sources.size ≤ id.index) :
    Sequence.raw call' reader' peek id p s = .ok (s.vector ⟨0⟩)[0]? s := by
  have hsame : ∀ f, s.modifySource id f = s := Store.modifySource_of_le hid
  have hsource := Store.source_of_le hid
  have hidle : (s.source id).busy = false := by rw [hsource]
  have hpull : (s.source id).generator.pull call' reader' peek (Sequence.engage s id) =
      .ok ((s.vector ⟨0⟩)[0]?.map fun v => (v, .vector ⟨0⟩ (if peek then 0 else 0 + 1) .start)) s := by
    rw [hsource, Generator.pull_vector, Sequence.engage, hsame]
  cases hv : (s.vector ⟨0⟩)[0]? with
  | none =>
    rw [hv] at hpull
    rw [Sequence.raw_ended hidle hpull, Sequence.release, hsame]
  | some v =>
    rw [hv] at hpull
    rw [Sequence.raw_found hidle hpull, Sequence.release, Sequence.deliver, hsame, hsame]

variable (hcall : (tracking strict vetted).Calls call call')
  (hreader : (tracking strict vetted).Reads reader reader')

include hcall hreader

/-- **Reading a source is tracked.** -/
theorem raw_tracks (peek : Bool) (id : SourceId) (p : Position) :
    Tracks strict vetted there (Probed.raw (probe strict) call reader peek id p)
      (Sequence.raw call' reader' peek id p) := by
  intro w t fine mirrors _
  by_cases hid : id.index < w.store.sources.size
  · cases hbusy : (w.store.source id).busy with
    | true =>
      rw [raw_busy hbusy, Sequence.raw_busy (by rw [mirrors.source_eq]; exact hbusy)]
      exact .interruption (.refl fine mirrors)
    | false =>
      have hidle : (t.source id).busy = false := by
        rw [mirrors.source_eq]
        exact hbusy
      have hpulled := @pulled strict vetted w t id peek _ _ _ _ hcall hreader fine mirrors hbusy
      rw [raw_idle hbusy]
      revert hpulled
      generalize pull strict call reader peek id _ (engaged w id) = seen
      generalize hresult : Generator.pull call' reader' peek _ (Sequence.engage t id) = outcome
      rw [← mirrors.source_eq] at hresult
      intro hpulled
      cases hpulled with
      | @found v wd td mid hworked hgives =>
        rw [Sequence.raw_found hidle hresult]
        simp only [List.append_assoc]
        exact .value (hworked.delivered fine hid hgives)
      | ended hworked hconsumed hresults =>
        rw [Sequence.raw_ended hidle hresult]
        exact .value (hworked.released fine hid hconsumed hresults)
      | failed hworked hconsumed hresults =>
        rw [Sequence.raw_failed hidle hresult]
        exact .interruption (hworked.released fine hid hconsumed hresults)
      | strayed hmem hvetted =>
        refine .strayed hmem fun h => ?_
        obtain ⟨t', rfl, hrooted⟩ := hvetted h
        rw [Sequence.raw_failed hidle hresult]
        exact ⟨_, rfl, fun h => hrooted ((Store.rooted_modifySource _).mp h)⟩
  · have hle := Nat.le_of_not_lt hid
    rw [raw_absent hle, raw_absent' (by rw [mirrors.sources_eq]; exact hle)]
    rw [show t.vector = w.store.vector by rw [mirrors.rest]; rfl]
    exact .value (.refl fine mirrors)

/-- An element that has been looked at is known to the generator, and has not been consumed. -/
theorem raw_looked {v : Value} {w' : Noted} (fine : Fine w) (mirrors : Mirrors strict w.store t)
    (hid : id.index < w.store.sources.size) 
    (h : Probed.raw (probe strict) call reader true id p w = .ok (some v) w') :
    (w'.store.source id).advanced = (w.store.source id).advanced ∧
      (w'.store.source id).generator.due? = none := by
  have hidle : (w.store.source id).busy = false := by
    refine Bool.eq_false_iff.mpr fun hbusy => ?_
    rw [raw_busy hbusy] at h
    cases h
  have hpulled := @pulled strict vetted w t id true _ _ _ _ hcall hreader fine mirrors hidle
  rw [raw_idle hidle] at h
  revert h hpulled
  generalize pull strict call reader true id _ (engaged w id) = seen
  generalize Generator.pull call' reader' true _ (Sequence.engage t id) = outcome
  intro h hpulled
  cases hpulled with
  | @found u wd td mid hworked hgives =>
    cases h
    rw [Sequence.source_delivered (hworked.lt hid), hworked.source hid]
    exact ⟨rfl, Generator.due?_given_peek v⟩
  | ended => cases h
  | failed => cases h
  | strayed => cases h

end Raw

end Recorded

end Abacus
