import Abacus.Proofs.Sequence.Standing

/-!
# Raw elements

How a generator gives a raw element, and what a source does around it: it refuses to be read while
its generator is at work, and it stores what the generator has become.

**The laws.** A generator over a stream gives the element at its place (`Setting.At.pull_outcome`).
A source ends as its generator does (`Setting.Stands.raw_outcome`), and it stands at what the look
leaves.
-/

namespace Abacus

/-- How an action that may give an element ends, told by the answer that a supply has for it. An
action that ends for want of fuel was given too little of it. -/
inductive Outcome {D α : Type} (asked : Except Interruption (Option D) → Supply D → Prop)
    (found : D → Supply D → α → Store → Prop) (stopped : Supply D → Store → Prop) (short : Prop) :
    EStateM.Result Interruption Store (Option α) → Prop
  | found {x : D} {w : Supply D} {v : α} {s' : Store} : asked (.ok (some x)) w → found x w v s' →
    Outcome asked found stopped short (.ok (some v) s')
  | ended {w : Supply D} {s' : Store} : asked (.ok none) w → stopped w s' →
    Outcome asked found stopped short (.ok none s')
  | failed {e : Interruption} {w : Supply D} {s' : Store} : asked (.error e) w → stopped w s' →
    Outcome asked found stopped short (.error e s')
  | short {s' : Store} : short → Outcome asked found stopped short (.error .outOfFuel s')

/-- What ends as one supply answers ends as another does, if the answers and the stores agree. -/
theorem Outcome.imp {D α : Type} {asked asked' : Except Interruption (Option D) → Supply D → Prop}
    {found found' : D → Supply D → α → Store → Prop} {stopped stopped' : Supply D → Store → Prop}
    {short short' : Prop} {result : EStateM.Result Interruption Store (Option α)}
    (h : Outcome asked found stopped short result) (hasked : ∀ {a w}, asked a w → asked' a w)
    (hfound : ∀ {x w v s'}, found x w v s' → found' x w v s')
    (hstopped : ∀ {w s'}, stopped w s' → stopped' w s') (hshort : short → short') :
    Outcome asked' found' stopped' short' result := by
  cases h with
  | found hlook h => exact .found (hasked hlook) (hfound h)
  | ended hlook h => exact .ended (hasked hlook) (hstopped h)
  | failed hlook h => exact .failed (hasked hlook) (hstopped h)
  | short h => exact .short (hshort h)

/-- The next element of a generator with the generator after it; none at the end. -/
def Generator.pull (call : Call) (reader : Reader) (peek : Bool) (g : Generator) :
    Action (Option (Value × Generator)) := do
  if ← g.atEnd reader then return none
  return some (← g.next call reader peek)

namespace Generator

section Pull

variable {call : Call} {reader : Reader} {peek : Bool} {f v : Value} {k : Nat} {limit : Option Int}
  {p : Position}

/-- An index generator is at its end when its index has come to the limit. -/
theorem atEnd_index (cached : Option Value) :
    atEnd reader (.index f k limit cached p) = pure (limit.any (· ≤ (k : Int))) := by
  cases limit <;> rfl

/-- At the limit nothing is given. -/
theorem pull_index_ended (h : limit.any (· ≤ (k : Int)) = true) (cached : Option Value) :
    pull call reader peek (.index f k limit cached p) = pure none := by
  rw [pull, atEnd_index, h]
  rfl

/-- Below the limit a value that has been looked ahead to is given without a call. -/
theorem next_index_cached (h : limit.any (· ≤ (k : Int)) = false) :
    next call reader peek (.index f k limit (some v) p) =
      pure (v, if peek then .index f k limit (some v) p else .index f (k + 1) limit none p) := by
  rw [next, atEnd_index, h]
  rfl

/-- The same for a pull. -/
theorem pull_index_cached (h : limit.any (· ≤ (k : Int)) = false) :
    pull call reader peek (.index f k limit (some v) p) =
      pure (some (v, if peek then .index f k limit (some v) p else .index f (k + 1) limit none p)) := by
  rw [pull, next_index_cached h, atEnd_index, h]
  rfl

/-- Otherwise the function is called with the index. -/
theorem pull_index_call (h : limit.any (· ≤ (k : Int)) = false) :
    pull call reader peek (.index f k limit none p) = (do
      let v ← call f [.ofNat k] p
      return some (v,
        if peek then .index f k limit (some v) p else .index f (k + 1) limit none p)) := by
  rw [pull, next, atEnd_index, h]
  simp only [Action.bind_pure, Bool.false_eq_true, if_false, bind_assoc]

/-- A value that has been looked ahead to is given without a call. -/
theorem pull_iterate_upcoming (previous : Option Value) :
    pull call reader peek (.iterate f (some v) previous p) =
      pure (some (v,
        if peek then .iterate f (some v) previous p else .iterate f none (some v) p)) := rfl

/-- Otherwise the function is called with the value given before. -/
theorem pull_iterate_call {previous : Value} :
    pull call reader peek (.iterate f none (some previous) p) = (do
      let v ← call f [previous] p
      return some (v,
        if peek then .iterate f (some v) (some previous) p else .iterate f none (some v) p)) := by
  rw [pull, next, atEnd]
  simp only [Action.bind_pure, Bool.false_eq_true, if_false, bind_assoc]

/-- A range gives its current number and steps on, or cannot tell whether it is at its end. -/
theorem pull_range (current stop step : Number) :
    pull call reader peek (.range current stop step p) =
      match rangeAtEnd current stop step with
      | .ok true => pure none
      | .ok false => pure (some (.number current,
          .range (if peek then current else current.add step) stop step p))
      | .error failure => Action.fail (.number failure) p := by
  rw [pull, next, atEnd]
  cases rangeAtEnd current stop step with
  | ok atEnd => cases atEnd <;> rfl
  | error failure => rfl

/-- A vector's elements are given until there are none, and the store stays as it is. -/
theorem pull_vector (items : VectorId) (s : Store) :
    pull call reader peek (.vector items k p) s =
      .ok ((s.vector items)[k]?.map fun v =>
        (v, .vector items (if peek then k else k + 1) p)) s := by
  rw [pull, next, atEnd]
  by_cases h : k < (s.vector items).size
  · rw [Array.getElem?_eq_getElem h]
    simp only [bind_assoc, Action.view_bind, Action.bind_pure, decide_eq_true_eq,
      if_neg (Nat.not_le.mpr h), Array.getElem?_eq_getElem h]
    rfl
  · rw [Array.getElem?_eq_none (Nat.le_of_not_lt h)]
    simp only [bind_assoc, Action.view_bind, Action.bind_pure, decide_eq_true_eq,
      if_pos (Nat.le_of_not_lt h)]
    rfl

/-- The generator after it gave an element, to look at or for good. -/
def given (peek : Bool) (value : Value) : Generator → Generator
  | .index f place limit _ position =>
    if peek then .index f place limit (some value) position
    else .index f (place + 1) limit none position
  | .iterate f _ previous position =>
    if peek then .iterate f (some value) previous position
    else .iterate f none (some value) position
  | .range current stop step position =>
    .range (if peek then current else current.add step) stop step position
  | .vector items place position => .vector items (if peek then place else place + 1) position
  | .zip left right => .zip left right
  | .take sequence remaining => .take sequence (if peek then remaining else remaining - 1)

theorem references_given (g : Generator) (peek : Bool) (v : Value) :
    (g.given peek v).references = g.references := by
  cases g <;> cases peek <;> rfl

/-- What a generator becomes can be told from what it gives. -/
theorem eq_given_of_next {g g' : Generator} {s s' : Store}
    (h : g.next call reader peek s = .ok (v, g') s') : g' = g.given peek v := by
  cases g with
  | index f k limit cached p =>
    obtain ⟨atEnd, s₁, -, h⟩ := Action.of_bind_ok h
    cases atEnd with
    | true => cases h
    | false =>
      cases cached with
      | some w =>
        cases h
        cases peek <;> rfl
      | none =>
        obtain ⟨w, s₂, -, h⟩ := Action.of_bind_ok (x := call f [.ofNat k] p) h
        cases h
        cases peek <;> rfl
  | iterate f upcoming previous p =>
    cases upcoming with
    | some w =>
      cases h
      cases peek <;> rfl
    | none =>
      cases previous with
      | some w =>
        obtain ⟨y, s₁, -, h⟩ := Action.of_bind_ok (x := call f [w] p) h
        cases h
        cases peek <;> rfl
      | none => cases h
  | range current stop step p =>
    obtain ⟨atEnd, s₁, -, h⟩ := Action.of_bind_ok h
    cases atEnd with
    | true => cases h
    | false =>
      cases h
      rfl
  | vector items k p =>
    obtain ⟨all, s₁, -, h⟩ := Action.of_bind_ok h
    cases hk : all[k]? with
    | none =>
      rw [hk] at h
      cases h
    | some w =>
      rw [hk] at h
      cases h
      rfl
  | zip l r =>
    obtain ⟨a, s₁, -, h⟩ := Action.of_bind_ok h
    obtain ⟨b, s₂, -, h⟩ := Action.of_bind_ok h
    obtain ⟨pair, s₃, -, h⟩ := Action.of_bind_ok h
    cases h
    rfl
  | take q n =>
    rw [next] at h
    by_cases hn : n = 0
    · rw [if_pos hn] at h
      cases h
    · rw [if_neg hn] at h
      obtain ⟨w, s₁, -, h⟩ := Action.of_bind_ok h
      cases h
      cases peek <;> rfl

/-- The same for a pull. -/
theorem eq_given_of_pull {g g' : Generator} {s s' : Store}
    (h : g.pull call reader peek s = .ok (some (v, g')) s') : g' = g.given peek v := by
  obtain ⟨atEnd, s₁, -, h⟩ := Action.of_bind_ok h
  cases atEnd with
  | true => cases h
  | false =>
    obtain ⟨⟨w, g''⟩, s₂, hnext, h⟩ := Action.of_bind_ok h
    cases h
    exact eq_given_of_next hnext

/-- What a generator takes from stays the same. -/
theorem pull_references {g g' : Generator} {s s' : Store}
    (h : g.pull call reader peek s = .ok (some (v, g')) s') : g'.references = g.references := by
  rw [eq_given_of_pull h, references_given]

end Pull

end Generator

namespace Sequence

variable {call : Call} {reader : Reader} {peek : Bool} {id : SourceId} {p : Position}
  {s s' : Store}

/-- A source at work. -/
def engage (s : Store) (id : SourceId) : Store := s.modifySource id ({ · with busy := true })

/-- A source whose work is done. -/
def release (s : Store) (id : SourceId) : Store := s.modifySource id ({ · with busy := false })

/-- A source whose generator has given an element. -/
def deliver (s : Store) (id : SourceId) (g : Generator) (peek : Bool) : Store :=
  s.modifySource id fun source =>
    { source with generator := g, advanced := if peek then source.advanced else source.advanced + 1 }

/-! ### What work does to a source -/

/-- A source that is taken into use is as it was, but busy. -/
theorem source_engage (hid : id.index < s.sources.size) :
    (engage s id).source id = { s.source id with busy := true } :=
  Store.source_modifySource_self hid _

/-- A source that is let go is as it was, and idle. -/
theorem source_release (hid : id.index < s.sources.size) :
    (release s id).source id = { s.source id with busy := false } :=
  Store.source_modifySource_self hid _

/-- What a source has given for good is counted. -/
theorem source_delivered (hid : id.index < s.sources.size) (g : Generator) (peek : Bool) :
    (release (deliver s id g peek) id).source id =
      ⟨g, (s.source id).advanced + if peek then 0 else 1, false⟩ := by
  have hid' : id.index < (deliver s id g peek).sources.size := by
    rwa [deliver, Store.size_sources_modifySource]
  rw [source_release hid', deliver, Store.source_modifySource_self hid]
  cases peek <;> rfl

/-- A delivery leaves the other sources as they are. -/
theorem source_delivered_of_ne {other : SourceId} (h : other ≠ id) (g : Generator) (peek : Bool) :
    (release (deliver s id g peek) id).source other = s.source other := by
  rw [release, Store.source_modifySource_of_ne h, deliver, Store.source_modifySource_of_ne h]

/-- To take a source into use changes nothing else. -/
theorem keeps_engage (s : Store) (id : SourceId) : s.Keeps (· = id) (engage s id) :=
  Store.keeps_modifySource s (by rfl) rfl

/-- Nor does letting it go. -/
theorem keeps_release (s : Store) (id : SourceId) : s.Keeps (· = id) (release s id) :=
  Store.keeps_modifySource s (by rfl) rfl

/-- A source that has given an element is the only one that has changed, if its generator still takes
from the same sequences. -/
theorem keeps_delivered {g : Generator} (h : g.references = (s.source id).generator.references)
    (peek : Bool) : s.Keeps (· = id) (release (deliver s id g peek) id) :=
  (Store.keeps_modifySource s (by rfl) h).trans (keeps_release _ id)

/-- While a generator is at work that leaves its own source alone, its source stays engaged. -/
theorem source_of_keeps_engage {own : SourceId → Prop} (hid : id.index < s.sources.size)
    (hother : ¬ own id) (h : (engage s id).Keeps own s') :
    id.index < s'.sources.size ∧ s'.source id = { s.source id with busy := true } := by
  have hlt := Nat.lt_of_lt_of_le hid (keeps_engage s id).size_sources
  exact ⟨Nat.lt_of_lt_of_le hlt h.size_sources, (h.source hlt hother).trans (source_engage hid)⟩

/-! ### How a source is read -/

/-- A source that is at work refuses to be read. -/
theorem raw_busy (busy : (s.source id).busy = true) :
    raw call reader peek id p s = .error (.fault ⟨.reentrantSequence, p⟩) s := by
  rw [raw, Action.view_bind, busy]
  rfl

/-- A source that is not at work asks its generator. -/
theorem raw_idle (idle : (s.source id).busy = false) :
    raw call reader peek id p s = holding id (do
      match ← (s.source id).generator.pull call reader peek with
      | none => return none
      | some (v, g) =>
        modify (deliver · id g peek)
        return some v) s := by
  rw [raw, Action.view_bind, idle]
  simp only [Generator.pull, bind_assoc]
  show holding id _ s = holding id _ s
  congr 2
  funext atEnd
  cases atEnd with
  | true => rfl
  | false => simp only [Bool.false_eq_true, if_false, bind_assoc, pure_bind]; rfl

/-- A source whose generator is at its end gives nothing and is let go. -/
theorem raw_ended (idle : (s.source id).busy = false)
    (h : (s.source id).generator.pull call reader peek (engage s id) = .ok none s') :
    raw call reader peek id p s = .ok none (release s' id) := by
  rw [raw_idle idle]
  simp only [holding]
  rw [show s.modifySource id _ = engage s id from rfl, Action.bind_ok h]
  rfl

/-- A source whose generator gives a value delivers it and is let go. -/
theorem raw_found (idle : (s.source id).busy = false) {v : Value} {g : Generator}
    (h : (s.source id).generator.pull call reader peek (engage s id) = .ok (some (v, g)) s') :
    raw call reader peek id p s = .ok (some v) (release (deliver s' id g peek) id) := by
  rw [raw_idle idle]
  simp only [holding]
  rw [show s.modifySource id _ = engage s id from rfl, Action.bind_ok h]
  rfl

/-- A source whose generator fails is let go in the store that the failure left. -/
theorem raw_failed (idle : (s.source id).busy = false) {e : Interruption}
    (h : (s.source id).generator.pull call reader peek (engage s id) = .error e s') :
    raw call reader peek id p s = .error e (release s' id) := by
  rw [raw_idle idle]
  simp only [holding]
  rw [show s.modifySource id _ = engage s id from rfl, Action.bind_error h]
  rfl

end Sequence

/-- How much budget a look at a supply may take: one for each level of nesting, and one for each
element that is consumed on the way. -/
def Short {D α : Type} (asked : α → Supply D → Prop) (u : Supply D) (budget : Nat) : Prop :=
  ∀ a w, asked a w → budget < u.height + (w.moved - u.moved)

namespace Setting

variable {D : Type} {E : Setting D}

/-- How a generator ends that gives what a supply has. -/
abbrev Pulled (E : Setting D) (s : Store) (u : Supply D) (W : List SourceId) (budget : Nat)
    (peek : Bool) (g : Generator) :
    EStateM.Result Interruption Store (Option (Value × Generator)) → Prop :=
  Outcome (Looks E.reading u)
    (fun x w v s' => E.reading.means s' v.1 x ∧ E.Supplies s' v.2 (w.after peek) W ∧
      s.Keeps (· ∈ W) s')
    (fun w s' => E.Supplies s' g w W ∧ s.Keeps (· ∈ W) s') (Short (Looks E.reading u) u budget)

/-- A generator that calls a function for its element ends as the call does. -/
theorem called_outcome {s : Store} {r : Nat → Except Interruption (Option D)} {k : Nat}
    {g : Generator} {f v : Value} {d : D} {p : Position} {next : Value → Generator} {budget : Nat}
    {peek : Bool} (hat : E.At s r k g)
    (ended : Ended E.reading.means s (E.reading.apply f d p) (E.call f [v] p s))
    (hr : r k = (E.reading.apply f d p).map some)
    (hnext : ∀ {s' w y}, E.reading.means s' w y → s.Grows s' → r k = .ok (some y) →
      E.Supplies s' (next w) ((Supply.raw r k).after peek) []) :
    E.Pulled s (.raw r k) [] budget peek g
      ((do let w ← E.call f [v] p; return some (w, next w) : Action _) s) := by
  cases hcall : E.call f [v] p s with
  | ok w s' =>
    rw [hcall] at ended
    rw [Action.bind_ok hcall]
    cases hy : E.reading.apply f d p with
    | ok y =>
      rw [hy] at ended hr
      cases ended with
      | value hm grown => exact .found (.raw hr) ⟨hm, hnext hm grown hr, grown.keeps _⟩
    | error e =>
      rw [hy] at ended
      nomatch ended
  | error e s' =>
    rw [hcall] at ended
    rw [Action.bind_error hcall]
    cases hy : E.reading.apply f d p with
    | ok y =>
      rw [hy] at ended
      nomatch ended
    | error e' =>
      rw [hy] at ended hr
      cases ended with
      | interruption grown => exact .failed (.raw hr) ⟨.raw (hat.keeps (grown.keeps _)), grown.keeps _⟩

/-- **A generator over a stream gives the element at its place.** -/
theorem At.pull_outcome {s : Store} {r : Nat → Except Interruption (Option D)} {k : Nat}
    {g : Generator} (h : E.At s r k g) (kept : E.start.Keeps E.own s) (reader : Reader)
    (budget : Nat) (peek : Bool) :
    E.Pulled s (.raw r k) [] budget peek g (g.pull E.call reader peek s) := by
  cases h with
  | @index f _ limit cached p free hr hcached =>
    have hrk := hr k
    rw [Reading.indexElement] at hrk
    cases hat : limit.any (· ≤ (k : Int)) with
    | true =>
      rw [hat] at hrk
      rw [Generator.pull_index_ended hat]
      exact .ended (.raw hrk) ⟨.raw (.index free hr hcached), .refl _ _⟩
    | false =>
      rw [hat] at hrk
      cases cached with
      | some v =>
        obtain ⟨d, hd, hm⟩ := hcached v rfl
        rw [Generator.pull_index_cached hat]
        refine .found (.raw hd) ⟨hm, ?_, .refl _ _⟩
        cases peek with
        | true => exact .raw (.index free hr hcached)
        | false => exact .raw (.index free hr fun _ h => nomatch h)
      | none =>
        rw [Generator.pull_index_call hat]
        have hindex := E.reading.means_number s (.integer (Int64.ofNat k))
        refine called_outcome (.index free hr hcached) (free p kept hindex) hrk ?_
        intro s' w y hm grown hy
        cases peek with
        | true =>
          refine .raw (.index free hr fun _ h => ?_)
          cases h
          exact ⟨y, hy, hm⟩
        | false => exact .raw (.index free hr fun _ h => nomatch h)
  | @upcoming f v previous _ d p free hr hd hm =>
    rw [Generator.pull_iterate_upcoming]
    refine .found (.raw hd) ⟨hm, ?_, .refl _ _⟩
    cases peek with
    | true => exact .raw (.upcoming free hr hd hm)
    | false => exact .raw (.previous free hr hd hm)
  | @previous f v k d p free hr hd hm =>
    rw [Generator.pull_iterate_call]
    refine called_outcome (.previous free hr hd hm) (free p kept hm) (hr k d hd) ?_
    intro s' w y hm' grown hy
    cases peek with
    | true => exact .raw (.upcoming free hr hy hm')
    | false => exact .raw (.previous free hr hy hm')
  | @range start stop step _ p hr =>
    have hrk := hr k
    rw [Reading.rangeElement] at hrk
    rw [Generator.pull_range]
    cases hend : Generator.rangeAtEnd (start.afterSteps step k) stop step with
    | error failure =>
      rw [hend] at hrk
      exact .failed (.raw hrk) ⟨.raw (.range hr), .refl _ _⟩
    | ok atEnd =>
      rw [hend] at hrk
      cases atEnd with
      | true => exact .ended (.raw hrk) ⟨.raw (.range hr), .refl _ _⟩
      | false =>
        refine .found (.raw hrk) ⟨E.reading.means_number s _, ?_, .refl _ _⟩
        cases peek with
        | true => exact .raw (.range hr)
        | false => exact .raw (.range hr)
  | @vector items _ p hv hsome hnone =>
    rw [Generator.pull_vector]
    cases hj : (s.vector items)[k]? with
    | none => exact .ended (.raw (hnone k hj)) ⟨.raw (.vector hv hsome hnone), .refl _ _⟩
    | some v =>
      obtain ⟨d, hd, hm⟩ := hsome k v hj
      refine .found (.raw hd) ⟨hm, ?_, .refl _ _⟩
      cases peek with
      | true => exact .raw (.vector hv hsome hnone)
      | false => exact .raw (.vector hv hsome hnone)

/-- Where a read of a source leaves it. -/
structure Left (E : Setting D) (s : Store) (id : SourceId) (u : Supply D) (W : List SourceId)
    (s' : Store) : Prop where
  stands : E.Stands s' id u W
  keeps : s.Keeps (· ∈ W) s'

/-- How a read of a source ends that gives what a supply has. -/
abbrev Read (E : Setting D) (s : Store) (id : SourceId) (u : Supply D) (W : List SourceId)
    (budget : Nat) (peek : Bool) : EStateM.Result Interruption Store (Option Value) → Prop :=
  Outcome (Looks E.reading u)
    (fun x w v s' => E.reading.means s' v x ∧ E.Left s id (w.after peek) W s' ∧
      (s'.source id).advanced = (s.source id).advanced + if peek then 0 else 1)
    (fun w s' => E.Left s id w W s') (Short (Looks E.reading u) u budget)

/-- What a reading leaves keeps what the start had. -/
theorem Left.kept {s s' : Store} {id : SourceId} {u : Supply D} {W : List SourceId}
    (h : E.Left s id u W s') (kept : E.start.Keeps E.own s) : E.start.Keeps E.own s' :=
  kept.trans (h.keeps.mono h.stands.own_of_mem)

/-- A source after its generator was at work, in a store that differs in this source alone from the
one that the generator left. -/
theorem left_of_pull {s s₁ s₂ : Store} {id : SourceId} {u w : Supply D} {W : List SourceId} {n : Nat}
    {g : Generator} (kept : E.start.Keeps E.own s) (h : E.Stands s id u (id :: W))
    (pulled : (Sequence.engage s id).Keeps (· ∈ W) s₁) (stored : s₁.Keeps (· = id) s₂)
    (same : ∀ q, s₂.sequence q = s₁.sequence q) (source : s₂.source id = ⟨g, n, false⟩)
    (hg : E.Supplies s₁ g w W) (hcounted : Supply.Counted (E.stream id) (E.limit id) n w)
    (hle : (s.source id).advanced ≤ n)
    (stays : n = (s.source id).advanced → (∃ x, Looks E.reading u (.ok (some x)) u) → w = u) :
    E.Left s id w (id :: W) s₂ := by
  cases h with
  | mk hid hown idle counted _ hnot coherent =>
    have engaged : s.Keeps (· ∈ id :: W) (Sequence.engage s id) :=
      Store.keeps_modifySource s List.mem_cons_self rfl
    have before := engaged.trans (pulled.mono fun id' h => List.mem_cons_of_mem id h)
    have keeps := before.trans (stored.mono fun id' e => e ▸ List.mem_cons_self)
    have hsub : ∀ id' ∈ id :: W, E.own id' := fun id' h =>
      (List.mem_cons.mp h).elim (fun e => e ▸ hown) (hg.own_of_mem id')
    refine ⟨.mk (Nat.lt_of_lt_of_le hid keeps.size_sources) hown ?_ ?_ ?_ hnot fun q hq hqid => ?_,
      keeps⟩
    · rw [source]
    · rw [source]
      exact hcounted
    · rw [source]
      refine hg.keeps (kept.trans (before.mono hsub)) stored ?_ ?_
      · rintro _ rfl
        exact hown
      · rintro id' hmem rfl
        exact hnot hmem
    · have hlt := exists_of_kept kept hq
      rw [keeps.source_eq hlt] at hqid
      subst hqid
      refine (coherent q hq rfl).read (keeps.mono hsub) hlt ?_ ?_ ?_
      · rw [same]
        exact pulled.pending (q := q) hlt hnot
      · rw [source]
        exact hle
      · rw [source]
        exact stays

/-- A source is left where a generator stops that gives nothing. -/
theorem Stands.left_of_stopped {s s₁ : Store} {id : SourceId} {u w : Supply D} {W : List SourceId}
    {a : Except Interruption (Option D)} (kept : E.start.Keeps E.own s)
    (h : E.Stands s id u (id :: W)) (hlook : Looks E.reading u a w)
    (hsupplies : E.Supplies s₁ (s.source id).generator w W)
    (pulled : (Sequence.engage s id).Keeps (· ∈ W) s₁) :
    E.Left s id w (id :: W) (Sequence.release s₁ id) := by
  have hstands := h
  cases h with
  | mk hid hown idle counted hg hnot coherent =>
    obtain ⟨hlt, hfirst⟩ := Sequence.source_of_keeps_engage hid hnot pulled
    have hlast : (Sequence.release s₁ id).source id =
        ⟨(s.source id).generator, (s.source id).advanced, false⟩ := by
      rw [Sequence.source_release hlt, hfirst]
    refine left_of_pull kept hstands pulled (Sequence.keeps_release s₁ id) (fun _ => rfl) hlast
      hsupplies (hlook.counted counted) (Nat.le_refl _) ?_
    rintro - ⟨x, hx⟩
    exact (hlook.unique hx).2

/-- A source is left where a generator stops that gives an element, and it counts the element if it
has been given for good. -/
theorem Stands.left_of_delivered {s s₁ : Store} {id : SourceId} {u w : Supply D}
    {W : List SourceId} {x : D} {v : Value} {g : Generator} {reader : Reader} {peek : Bool}
    (kept : E.start.Keeps E.own s) (h : E.Stands s id u (id :: W))
    (hlook : Looks E.reading u (.ok (some x)) w)
    (hres : (s.source id).generator.pull E.call reader peek (Sequence.engage s id) =
      .ok (some (v, g)) s₁)
    (hsupplies : E.Supplies s₁ g (w.after peek) W)
    (pulled : (Sequence.engage s id).Keeps (· ∈ W) s₁) :
    s₁.Keeps (· = id) (Sequence.release (Sequence.deliver s₁ id g peek) id) ∧
      E.Left s id (w.after peek) (id :: W) (Sequence.release (Sequence.deliver s₁ id g peek) id) ∧
      ((Sequence.release (Sequence.deliver s₁ id g peek) id).source id).advanced =
        (s.source id).advanced + if peek then 0 else 1 := by
  have hstands := h
  cases h with
  | mk hid hown idle counted hg hnot coherent =>
    obtain ⟨hlt, hfirst⟩ := Sequence.source_of_keeps_engage hid hnot pulled
    have hreferences : g.references = (s₁.source id).generator.references := by
      rw [hfirst]
      exact Generator.pull_references hres
    have stored := Sequence.keeps_delivered hreferences peek
    have hlast : (Sequence.release (Sequence.deliver s₁ id g peek) id).source id =
        ⟨g, (s.source id).advanced + if peek then 0 else 1, false⟩ := by
      rw [Sequence.source_delivered hlt, hfirst]
    refine ⟨stored, ?_, by rw [hlast]⟩
    refine left_of_pull kept hstands pulled stored (fun _ => rfl) hlast hsupplies ?_ ?_ ?_
    · cases peek with
      | true => exact hlook.counted counted
      | false => exact hlook.counted_drop counted
    · exact Nat.le_add_right _ _
    · rintro hn ⟨x, hx⟩
      cases peek with
      | true => exact (hlook.unique hx).2
      | false => exact absurd hn (Nat.succ_ne_self _)

/-- **A source ends as its generator does**, and it stands at what the read leaves. -/
theorem Stands.raw_outcome {s : Store} {id : SourceId} {u : Supply D} {W : List SourceId}
    (kept : E.start.Keeps E.own s) (h : E.Stands s id u (id :: W)) {reader : Reader} {peek : Bool}
    {budget : Nat} {p : Position}
    (hpull : ∀ {s' : Store}, E.start.Keeps E.own s' → E.Supplies s' (s.source id).generator u W →
      E.Pulled s' u W budget peek (s.source id).generator
        ((s.source id).generator.pull E.call reader peek s')) :
    E.Read s id u (id :: W) budget peek (Sequence.raw E.call reader peek id p s) := by
  have hstands := h
  cases h with
  | mk hid hown idle counted hg hnot coherent =>
    have engaged := Sequence.keeps_engage s id
    have hsub : ∀ id', id' = id → E.own id' := by
      rintro _ rfl
      exact hown
    have hother : ∀ id' ∈ W, ¬ id' = id := fun id' hid' e => hnot (e ▸ hid')
    have hout := hpull (kept.trans (engaged.mono hsub)) (hg.keeps kept engaged hsub hother)
    generalize hres : (s.source id).generator.pull E.call reader peek _ = res at hout
    cases hout with
    | @found x w v s₁ hlook h =>
      obtain ⟨hm, hsupplies, pulled⟩ := h
      obtain ⟨stored, left, hadvanced⟩ :=
        hstands.left_of_delivered kept hlook hres hsupplies pulled
      rw [Sequence.raw_found idle hres]
      exact .found hlook ⟨E.reading.means_keeps (stored.mono hsub) hm, left, hadvanced⟩
    | @ended w s₁ hlook h =>
      rw [Sequence.raw_ended idle hres]
      exact .ended hlook (hstands.left_of_stopped kept hlook h.1 h.2)
    | @failed e w s₁ hlook h =>
      rw [Sequence.raw_failed idle hres]
      exact .failed hlook (hstands.left_of_stopped kept hlook h.1 h.2)
    | short h =>
      rw [Sequence.raw_failed idle hres]
      exact .short h

end Setting

end Abacus
