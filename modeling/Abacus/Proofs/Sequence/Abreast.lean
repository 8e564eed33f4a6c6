import Abacus.Proofs.Sequence.Twins

/-!
# Two runs abreast

A read that is made in two stores that are twins goes the same way in both: it asks the same sources
for elements, calls the same functions on the same data, and leaves twins.

**The law** (`Setting.reader_abreast`): two reads that begin in stores that are twins end abreast.
While they last, no source is moved that is at work.
-/

namespace Abacus

namespace Setting

variable {D : Type}

/-! ## Runs -/

/-- Two runs from two stores end abreast: in related values and in twins, or in the same interruption. -/
inductive Abreast (E : Setting D) {α β : Type} (rel : Store → Store → α → β → Prop) (s s' : Store) :
    EStateM.Result Interruption Store α → EStateM.Result Interruption Store β → Prop
  | value {a : α} {b : β} {s₁ s₁' : Store} : E.Onward s s' s₁ s₁' → rel s₁ s₁' a b →
    Abreast E rel s s' (.ok a s₁) (.ok b s₁')
  | interruption {e : Interruption} {s₁ s₁' : Store} :
    Abreast E rel s s' (.error e s₁) (.error e s₁')

variable {E : Setting D} {s s' s₁ s₁' s₂ s₂' : Store} {v v' : Value} {id : SourceId} {q : SequenceId}

namespace Abreast

variable {α β α' β' : Type} {rel : Store → Store → α → β → Prop}
  {rel' : Store → Store → α' → β' → Prop} {x : EStateM.Result Interruption Store α}
  {y : EStateM.Result Interruption Store β}

/-- Runs end abreast if they do after stores that have been reached abreast. -/
theorem after (onward : E.Onward s s' s₁ s₁') (h : E.Abreast rel s₁ s₁' x y) :
    E.Abreast rel s s' x y := by
  cases h with
  | value h hrel => exact .value (onward.trans h) hrel
  | interruption => exact .interruption

/-- What is said of the two results may be said more weakly. -/
theorem imp {rel' : Store → Store → α → β → Prop} (h : E.Abreast rel s s' x y)
    (hrel : ∀ {s₁ s₁' a b}, E.Onward s s' s₁ s₁' → rel s₁ s₁' a b → rel' s₁ s₁' a b) :
    E.Abreast rel' s s' x y := by
  cases h with
  | value h hab => exact .value h (hrel h hab)
  | interruption => exact .interruption

/-- Actions that run abreast do so one after the other. -/
theorem bind {x : Action α} {y : Action β} {f : α → Action α'} {g : β → Action β'}
    (h : E.Abreast rel s s' (x s) (y s'))
    (hnext : ∀ {s₁ s₁' a b}, E.Onward s s' s₁ s₁' → rel s₁ s₁' a b →
      E.Abreast rel' s₁ s₁' (f a s₁) (g b s₁')) :
    E.Abreast rel' s s' ((x >>= f) s) ((y >>= g) s') := by
  generalize hx : x s = rx at h
  generalize hy : y s' = ry at h
  cases h with
  | value onward hrel =>
    rw [Action.bind_ok hx, Action.bind_ok hy]
    exact (hnext onward hrel).after onward
  | interruption =>
    rw [Action.bind_error hx, Action.bind_error hy]
    exact .interruption

/-- Two runs that end as the same telling tells end abreast. -/
theorem of_ended {γ : Type} {means : Store → α → γ → Prop} {means' : Store → β → γ → Prop}
    {told : Except Interruption γ} (h : E.Twins s s') (hx : Ended means s told x)
    (hy : Ended means' s' told y) :
    E.Abreast (fun s₁ s₁' a b => s.Grows s₁ ∧ ∃ d, means s₁ a d ∧ means' s₁' b d) s s' x y := by
  cases hx with
  | value hd grown =>
    cases hy with
    | value hd' grown' => exact .value (.of_grows h grown grown') ⟨grown, _, hd, hd'⟩
  | interruption =>
    cases hy with
    | interruption => exact .interruption

end Abreast

/-- An effect-free function goes the same way with values that stand for one datum. -/
theorem call_abreast (h : E.Twins s s') {f : Value} (free : E.reading.EffectFree E.call E.start f)
    (hv : E.Same s s' v v') (p : Position) :
    E.Abreast E.Same s s' (E.call f [v] p s) (E.call f [v'] p s') := by
  obtain ⟨d, hd, hd'⟩ := hv
  exact (Abreast.of_ended h (free p h.kept hd) (free p h.kept' hd')).imp fun _ ⟨_, hw⟩ => hw

/-- The same value is sent through the same functions. -/
theorem transform_abreast (h : E.Twins s s') {ts : List Transformer}
    (free : ∀ t ∈ ts, E.reading.EffectFree E.call E.start t.function) (hv : E.Same s s' v v')
    (p : Position) :
    E.Abreast (fun s₁ s₁' o o' => s.Grows s₁ ∧ Option.Rel (E.Same s₁ s₁') o o') s s'
      (Sequence.transform E.call p ts v s) (Sequence.transform E.call p ts v' s') := by
  obtain ⟨d, hd, hd'⟩ := hv
  refine (Abreast.of_ended h (Reading.transform_ends p free h.kept hd)
    (Reading.transform_ends p free h.kept' hd')).imp fun _ hrel => ?_
  obtain ⟨grown, o, ha, hb⟩ := hrel
  refine ⟨grown, ?_⟩
  cases ha with
  | some ha =>
    cases hb with
    | some hb => exact .some ⟨_, ha, hb⟩
  | none =>
    cases hb with
    | none => exact .none

/-! ## Generators and sources -/

/-- What a reader does goes the same way in stores that are twins. -/
structure ReaderAbreast (E : Setting D) (reader : Reader) : Prop where
  atEnd : ∀ {s s' : Store} {q : SequenceId}, E.Twins s s' → E.watched q →
    E.Abreast (fun _ _ a b => a = b) s s' (reader.atEnd q s) (reader.atEnd q s')
  next : ∀ {s s' : Store} {q : SequenceId} (peek : Bool), E.Twins s s' → E.watched q →
    E.Abreast E.Same s s' (reader.next q peek s) (reader.next q peek s')

variable {reader : Reader} {p : Position}

/-- Two elements with the generators after them. -/
def SamePull (E : Setting D) (s s' : Store) (r r' : Value × Generator) : Prop :=
  E.Same s s' r.1 r'.1 ∧ E.Matches s s' r.2 r'.2

/-- A generator that goes on with what is called goes on the same way. -/
theorem called_abreast (h : E.Twins s s') {f : Value}
    (free : E.reading.EffectFree E.call E.start f) (hv : E.Same s s' v v')
    {next next' : Value → Generator}
    (hnext : ∀ {s₁ s₁' w w'}, E.Onward s s' s₁ s₁' → E.Same s₁ s₁' w w' →
      E.Matches s₁ s₁' (next w) (next' w')) :
    E.Abreast (fun s₁ s₁' => Option.Rel (E.SamePull s₁ s₁')) s s'
      ((do let w ← E.call f [v] p; return some (w, next w) : Action _) s)
      ((do let w ← E.call f [v'] p; return some (w, next' w) : Action _) s') := by
  refine (call_abreast h free hv p).bind fun onward hw => ?_
  exact .value (.refl onward.twins) (.some ⟨hw, hnext onward hw⟩)

/-- Two values stand for a pair when they are put into a new vector. -/
theorem pair_ends {v w : Value} {x y : D} (hx : E.reading.means s v x) (hy : E.reading.means s w y) :
    Ended E.reading.means s (.ok (E.reading.pair x y)) (Action.newVector [v, w] s) := by
  have grown := s.grows_addVector #[v, w]
  refine .value (E.reading.means_pair ?_ (Store.vector_addVector_new _) ?_ ?_) grown
  · simp [Store.addVector]
  · exact E.reading.means_keeps (grown.keeps _) hx
  · exact E.reading.means_keeps (grown.keeps _) hy

/-- The next elements of two sequences make up the same pair. -/
theorem pair_abreast (peek : Bool) (hreader : E.ReaderAbreast reader) (h : E.Twins s s')
    {l r : SequenceId} (hl : E.watched l) (hr : E.watched r) :
    E.Abreast E.Same s s' (reader.pair peek l r s) (reader.pair peek l r s') := by
  refine (hreader.next peek h hl).bind fun onward ha => ?_
  refine (hreader.next peek onward.twins hr).bind fun {s₂ s₂' b b'} onward hb => ?_
  obtain ⟨x, hx, hx'⟩ := ha.keeps onward.kept onward.kept'
  obtain ⟨y, hy, hy'⟩ := hb
  refine (Abreast.of_ended onward.twins (pair_ends hx hy) (pair_ends hx' hy')).imp
    fun _ ⟨_, hv⟩ => hv

/-- Two generators give the same, or both end. -/
abbrev GiveAbreast (E : Setting D) (reader : Reader) (peek : Bool) (s s' : Store)
    (g g' : Generator) : Prop :=
  E.Abreast (fun s₁ s₁' => Option.Rel (E.SamePull s₁ s₁')) s s' (g.pull E.call reader peek s)
    (g'.pull E.call reader peek s')

/-- The same value is given with generators that match. -/
theorem Abreast.given (h : E.Twins s s') (hv : E.Same s s' v v') {g g' : Generator}
    (hg : E.Matches s s' g g') :
    E.Abreast (fun s₁ s₁' => Option.Rel (E.SamePull s₁ s₁')) s s' (.ok (some (v, g)) s)
      (.ok (some (v', g')) s') :=
  .value (.refl h) (.some ⟨hv, hg⟩)

/-- Or nothing is. -/
theorem Abreast.ended (h : E.Twins s s') :
    E.Abreast (fun s₁ s₁' => Option.Rel (E.SamePull s₁ s₁')) s s' (.ok none s) (.ok none s') :=
  .value (.refl h) .none

/-- Index generators call with the same index, or give the same value. -/
theorem index_abreast (peek : Bool) (h : E.Twins s s') {f : Value}
    (free : E.reading.EffectFree E.call E.start f) {cached cached' : Option Value}
    (hcached : Option.Rel (E.Same s s') cached cached') (k : Nat) (limit : Option Int) :
    E.GiveAbreast reader peek s s' (.index f k limit cached p) (.index f k limit cached' p) := by
  rw [GiveAbreast]
  cases hat : limit.any (· ≤ (k : Int)) with
  | true =>
    rw [Generator.pull_index_ended hat, Generator.pull_index_ended hat]
    exact .ended h
  | false =>
    cases hcached with
    | some hv =>
      rw [Generator.pull_index_cached hat, Generator.pull_index_cached hat]
      refine .given h hv ?_
      cases peek with
      | true => exact .index free (.some hv)
      | false => exact .index free .none
    | none =>
      rw [Generator.pull_index_call hat]
      have hindex : E.Same s s' (.ofNat k) (.ofNat k) :=
        ⟨_, E.reading.means_number s _, E.reading.means_number s' _⟩
      refine called_abreast h free hindex fun _ hw => ?_
      cases peek with
      | true => exact .index free (.some hw)
      | false => exact .index free .none

/-- Iterations call with the same value, or give it. -/
theorem iterate_abreast (peek : Bool) (h : E.Twins s s') {f : Value}
    (free : E.reading.EffectFree E.call E.start f)
    {upcoming upcoming' previous previous' : Option Value}
    (hupcoming : Option.Rel (E.Same s s') upcoming upcoming')
    (hprevious : Option.Rel (E.Same s s') previous previous') :
    E.GiveAbreast reader peek s s' (.iterate f upcoming previous p)
      (.iterate f upcoming' previous' p) := by
  rw [GiveAbreast]
  cases hupcoming with
  | some hv =>
    rw [Generator.pull_iterate_upcoming, Generator.pull_iterate_upcoming]
    refine .given h hv ?_
    cases peek with
    | true => exact .iterate free (.some hv) hprevious
    | false => exact .iterate free .none (.some hv)
  | none =>
    cases hprevious with
    | some hv =>
      rw [Generator.pull_iterate_call, Generator.pull_iterate_call]
      refine called_abreast h free hv fun onward hw => ?_
      cases peek with
      | true => exact .iterate free (.some hw) (.some (hv.keeps onward.kept onward.kept'))
      | false => exact .iterate free .none (.some hw)
    | none => exact .interruption

/-- Two sequences are zipped the same way: they end together, or their next elements make up the same
pair. -/
theorem zip_abreast (peek : Bool) (hreader : E.ReaderAbreast reader) (h : E.Twins s s')
    {l r : SequenceId} (hl : E.watched l) (hr : E.watched r) :
    E.GiveAbreast reader peek s s' (.zip l r) (.zip l r) := by
  rw [GiveAbreast, Generator.pull_zip]
  refine (hreader.atEnd h hl).bind fun {s₁ s₁' done done'} onward e => ?_
  subst e
  cases done with
  | true => exact .ended onward.twins
  | false =>
    refine (hreader.atEnd onward.twins hr).bind fun {s₂ s₂' done done'} onward e => ?_
    subst e
    cases done with
    | true => exact .ended onward.twins
    | false =>
      show E.Abreast _ s₂ s₂' ((reader.pair peek l r >>= _) s₂) ((reader.pair peek l r >>= _) s₂')
      refine (pair_abreast peek hreader onward.twins hl hr).bind fun onward hv => ?_
      exact .given onward.twins hv (.zip hl hr)

/-- To take from the same sequence. -/
theorem take_abreast (peek : Bool) (hreader : E.ReaderAbreast reader) (h : E.Twins s s')
    (hq : E.watched q) (n : Nat) :
    E.GiveAbreast reader peek s s' (.take q n) (.take q n) := by
  cases n with
  | zero => exact .ended h
  | succ n =>
    rw [GiveAbreast, Generator.pull_take_succ]
    refine (hreader.atEnd h hq).bind fun {s₁ s₁' done done'} onward e => ?_
    subst e
    cases done with
    | true => exact .ended onward.twins
    | false =>
      refine (hreader.next peek onward.twins hq).bind fun onward hv => ?_
      exact .given onward.twins hv (.take hq)

/-- Two generators that have the same to give give the same. -/
theorem pull_abreast (peek : Bool) (hreader : E.ReaderAbreast reader) (h : E.Twins s s')
    {g g' : Generator} (hg : E.Matches s s' g g') : E.GiveAbreast reader peek s s' g g' := by
  cases hg with
  | @index f k limit _ _ p free hcached => exact index_abreast peek h free hcached k limit
  | iterate free hupcoming hprevious => exact iterate_abreast peek h free hupcoming hprevious
  | @range current stop step p =>
    rw [GiveAbreast, Generator.pull_range]
    cases Generator.rangeAtEnd current stop step with
    | error failure => exact .interruption
    | ok done =>
      cases done with
      | true => exact .ended h
      | false =>
        exact .given h ⟨_, E.reading.means_number s _, E.reading.means_number s' _⟩ .range
  | @vector items k p hlt hlt' hitems =>
    rw [GiveAbreast, Generator.pull_vector, Generator.pull_vector]
    have hat := optionRel_getElem? hitems k
    simp only [Store.items, Array.getElem?_toList] at hat
    generalize (s.vector items)[k]? = o at hat
    generalize (s'.vector items)[k]? = o' at hat
    cases hat with
    | some hv => exact .given h hv (.vector hlt hlt' hitems)
    | none => exact .ended h
  | zip hl hr => exact zip_abreast peek hreader h hl hr
  | @take q n hq => exact take_abreast peek hreader h hq n

/-! ## Sources -/

/-- Twins take a source into use together. -/
theorem Twins.engage (h : E.Twins s s') (hid : E.Feeds id) :
    E.Twins (Sequence.engage s id) (Sequence.engage s' id) :=
  h.modifySource hid rfl rfl rfl (h.advanced hid) (h.generator hid)

/-- And let it go together. -/
theorem Twins.release (h : E.Twins s s') (hid : E.Feeds id) :
    E.Twins (Sequence.release s id) (Sequence.release s' id) :=
  h.modifySource hid rfl rfl rfl (h.advanced hid) (h.generator hid)

/-- Two stores stay twins if a source gives in both of them, and its generators still have the same
to give. -/
theorem Twins.delivered (h : E.Twins s s') (hid : E.Feeds id) {g g' : Generator}
    (references : g.references = (s.source id).generator.references) (hg : E.Matches s s' g g')
    (peek : Bool) :
    g'.references = (s'.source id).generator.references ∧
      E.Twins (Sequence.release (Sequence.deliver s id g peek) id)
        (Sequence.release (Sequence.deliver s' id g' peek) id) := by
  have references' : g'.references = (s'.source id).generator.references := by
    rw [(h.generator hid).references, ← references]
    exact hg.references
  refine ⟨references', Twins.release ?_ hid⟩
  exact h.modifySource hid references references' (h.busy hid) (by rw [h.advanced hid]) hg

/-- Where two runs have got when a source has done its work in both. -/
theorem Onward.worked (h : E.Twins s s') (hid : E.Feeds id) (idle : (s.source id).busy = false)
    (onward : E.Onward (Sequence.engage s id) (Sequence.engage s' id) s₁ s₁')
    (twins : E.Twins s₂ s₂') (kept : s₁.Keeps E.own s₂) (kept' : s₁'.Keeps E.own s₂')
    (others : ∀ {other}, other ≠ id → s₂.source other = s₁.source other) :
    E.Onward s s' s₂ s₂' := by
  have engaged : s.Keeps E.own (Sequence.engage s id) :=
    Store.keeps_modifySource s (h.own hid) rfl
  have engaged' : s'.Keeps E.own (Sequence.engage s' id) :=
    Store.keeps_modifySource s' (h.own hid) rfl
  refine ⟨twins, (engaged.trans onward.kept).trans kept, (engaged'.trans onward.kept').trans kept',
    fun other busy => ?_⟩
  have hne : other ≠ id := by
    rintro rfl
    exact Bool.noConfusion (idle.symm.trans busy)
  rw [others hne]
  exact ((Store.spares_modifySource s idle _).trans onward.spares) other busy

/-- **A source is read the same way in stores that are twins.** A look consumes nothing. -/
theorem raw_abreast (hreader : E.ReaderAbreast reader) (h : E.Twins s s') (hid : E.Feeds id)
    (peek : Bool) (p : Position) :
    E.Abreast (fun s₁ s₁' o o' => Option.Rel (E.Same s₁ s₁') o o' ∧
        (peek = true → (s₁.source id).advanced = (s.source id).advanced)) s s'
      (Sequence.raw E.call reader peek id p s) (Sequence.raw E.call reader peek id p s') := by
  have hsame := h.busy hid
  cases idle : (s.source id).busy with
  | true =>
    rw [Sequence.raw_busy idle, Sequence.raw_busy (hsame ▸ idle)]
    exact .interruption
  | false =>
    have idle' : (s'.source id).busy = false := hsame ▸ idle
    have hlt := Nat.lt_of_lt_of_le (h.lt hid) h.kept.size_sources
    have sub : ∀ other, other = id → E.own other := by
      rintro _ rfl
      exact h.own hid
    have hg : E.Matches (Sequence.engage s id) (Sequence.engage s' id) (s.source id).generator
        (s'.source id).generator := (h.generator hid).keeps
      ((Sequence.keeps_engage s id).mono sub) ((Sequence.keeps_engage s' id).mono sub)
    have hpull : E.GiveAbreast reader peek _ _ _ _ := pull_abreast peek hreader (h.engage hid) hg
    rw [GiveAbreast] at hpull
    generalize hx : (s.source id).generator.pull E.call reader peek _ = rx at hpull
    generalize hy : (s'.source id).generator.pull E.call reader peek _ = ry at hpull
    cases hpull with
    | interruption =>
      rw [Sequence.raw_failed idle hx, Sequence.raw_failed idle' hy]
      exact .interruption
    | @value o o' s₁ s₁' onward hrel =>
      -- while the generator was at work, its source stayed engaged
      have hfirst := onward.spares.source_engage hlt
      have twins := onward.twins
      have hlt₁ := Nat.lt_of_lt_of_le (h.lt hid) twins.kept.size_sources
      cases hrel with
      | none =>
        rw [Sequence.raw_ended idle hx, Sequence.raw_ended idle' hy]
        have kept := (Sequence.keeps_release s₁ id).mono sub
        have kept' := (Sequence.keeps_release s₁' id).mono sub
        refine .value (.worked h hid idle onward (twins.release hid) kept kept' fun hne => ?_)
          ⟨.none, fun _ => ?_⟩
        · exact Store.source_modifySource_of_ne hne _
        · rw [Sequence.source_release hlt₁, hfirst]
      | @some r r' hr =>
        obtain ⟨v, g⟩ := r
        obtain ⟨v', g'⟩ := r'
        obtain ⟨hv, hg⟩ := hr
        rw [Sequence.raw_found idle hx, Sequence.raw_found idle' hy]
        have references : g.references = (s₁.source id).generator.references := by
          rw [hfirst]
          exact Generator.pull_references hx
        obtain ⟨references', delivered⟩ := twins.delivered hid references hg peek
        have kept := (Sequence.keeps_delivered references peek).mono sub
        have kept' := (Sequence.keeps_delivered references' peek).mono sub
        refine .value (.worked h hid idle onward delivered kept kept' fun hne => ?_)
          ⟨.some (hv.keeps kept kept'), ?_⟩
        · exact Sequence.source_delivered_of_ne hne g peek
        · rintro rfl
          rw [Sequence.source_delivered hlt₁, hfirst]
          rfl

/-! ## Sequences -/

section Sequences

variable {call : Call} {fuel : Nat}

/-- A sequence that holds nothing looks for an element. -/
theorem lookahead_of_none (hp : (s.sequence q).pending = none) :
    Sequence.lookahead call reader fuel q s =
      Sequence.seek call reader q (s.sequence q) fuel s := by
  rw [Sequence.lookahead, Action.view_bind, Action.view_bind, hp]

/-- A sequence that holds what is out of date lets it go and looks for an element. -/
theorem lookahead_of_stale {n : Nat} (hp : (s.sequence q).pending = some (n, v))
    (hn : n ≠ (s.source (s.sequence q).source).advanced) :
    Sequence.lookahead call reader fuel q s =
      Sequence.seek call reader q (s.sequence q) fuel (s.setPending q none) := by
  rw [Sequence.lookahead, Action.view_bind, Action.view_bind, hp]
  simp only [if_neg hn]
  rfl

/-- A search asks only how a sequence was built, which never changes. -/
theorem seek_built {own : SourceId → Prop} (kept : s.Keeps own s') (hq : q.index < s.sequences.size) :
    Sequence.seek call reader q (s'.sequence q) fuel =
      Sequence.seek call reader q (s.sequence q) fuel := by
  induction fuel with
  | zero => rfl
  | succ fuel ih =>
    simp only [Sequence.seek, ih, kept.source_eq hq, kept.transformers_eq hq, kept.position_eq hq]

/-- They seek together: by induction on the fuel. -/
theorem seek_abreast (hreader : E.ReaderAbreast reader) (h : E.Twins s s') (hq : E.watched q)
    (fuel : Nat) :
    E.Abreast (fun s₁ s₁' => Option.Rel fun v v' => E.Same s₁ s₁' v v' ∧ s₁.Holds q v) s s'
      (Sequence.seek E.call reader q (E.start.sequence q) fuel s)
      (Sequence.seek E.call reader q (E.start.sequence q) fuel s') := by
  have hfeeds := feeds_of_watched hq
  induction fuel generalizing s s' with
  | zero => exact .interruption
  | succ fuel ih =>
    rw [Sequence.seek, Action.view_bind, Action.view_bind]
    refine (raw_abreast hreader h hfeeds true _).bind fun {s₁ s₁' o o'} onward ho => ?_
    obtain ⟨ho, hadvanced⟩ := ho
    cases ho with
    | none => exact .value (.refl onward.twins) .none
    | @some x x' hx =>
      refine (transform_abreast onward.twins (E.free_of_watched hq) hx _).bind
        fun {s₂ s₂' f f'} onward₂ hf => ?_
      obtain ⟨grown, hf⟩ := hf
      cases hf with
      | @some w w' hw =>
        have held := Onward.hold onward₂.twins hq (h.advanced hfeeds) hw
        refine .value held (.some ⟨hw.keeps held.kept held.kept', ?_⟩)
        have hlt := exists_of_kept onward₂.twins.kept hq
        have hlt₁ := Nat.lt_of_lt_of_le (h.lt hfeeds) onward.twins.kept.size_sources
        rw [Store.Holds, Store.sequence_setPending_self hlt, Store.source_setPending,
          onward₂.twins.kept.source_eq (E.exists_of_watched hq), grown.source hlt₁ id,
          hadvanced rfl]
      | none =>
        refine (raw_abreast hreader onward₂.twins hfeeds false _).bind fun onward₃ _ => ?_
        exact ih onward₃.twins

/-- **A look ahead goes the same way in stores that are twins**, and what it finds is held. -/
theorem lookahead_abreast (hreader : E.ReaderAbreast reader) (h : E.Twins s s') (hq : E.watched q)
    (fuel : Nat) :
    E.Abreast (fun s₁ s₁' => Option.Rel fun v v' => E.Same s₁ s₁' v v' ∧ s₁.Holds q v) s s'
      (Sequence.lookahead E.call reader fuel q s) (Sequence.lookahead E.call reader fuel q s') := by
  have hlt := E.exists_of_watched hq
  have hpending := h.pending hq
  generalize hp : (s.sequence q).pending = p at hpending
  generalize hp' : (s'.sequence q).pending = p' at hpending
  cases hpending with
  | none =>
    rw [lookahead_of_none hp, lookahead_of_none hp', seek_built h.kept hlt, seek_built h.kept' hlt]
    exact seek_abreast hreader h hq fuel
  | @some a b hab =>
    obtain ⟨n, v⟩ := a
    obtain ⟨n', v'⟩ := b
    obtain ⟨rfl, hv⟩ := hab
    have hcount : (s.source (s.sequence q).source).advanced =
        (s'.source (s'.sequence q).source).advanced := by
      rw [h.source_eq hq]
      exact h.advanced (h.feeds hq).1
    by_cases hn : n = (s.source (s.sequence q).source).advanced
    · have holds : s.Holds q v := by rw [Store.Holds, hp, hn]
      have holds' : s'.Holds q v' := by rw [Store.Holds, hp', ← hcount]; exact congrArg _ (by rw [← hn])
      rw [Sequence.lookahead_of_holds holds, Sequence.lookahead_of_holds holds']
      exact .value (.refl h) (.some ⟨hv, holds⟩)
    · have onward := Onward.letGo h hq
      rw [lookahead_of_stale hp hn, lookahead_of_stale hp' (hcount ▸ hn), seek_built h.kept hlt,
        seek_built h.kept' hlt]
      exact (seek_abreast hreader onward.twins hq fuel).after onward

/-- They tell the end alike. -/
theorem atEnd_abreast (hreader : E.ReaderAbreast reader) (h : E.Twins s s') (hq : E.watched q)
    (fuel : Nat) :
    E.Abreast (fun _ _ a b => a = b) s s' (Sequence.atEnd E.call reader fuel q s)
      (Sequence.atEnd E.call reader fuel q s') := by
  refine (lookahead_abreast hreader h hq fuel).bind fun {s₁ s₁' o o'} onward ho => ?_
  refine .value (.refl onward.twins) ?_
  cases ho <;> rfl

/-- They look at the same element. -/
theorem peek_abreast (hreader : E.ReaderAbreast reader) (h : E.Twins s s') (hq : E.watched q)
    (fuel : Nat) (p : Position) :
    E.Abreast E.Same s s' (Sequence.peek E.call reader fuel q p s)
      (Sequence.peek E.call reader fuel q p s') := by
  refine (lookahead_abreast hreader h hq fuel).bind fun {s₁ s₁' o o'} onward ho => ?_
  cases ho with
  | some hv => exact .value (.refl onward.twins) hv.1
  | none => exact .interruption

/-- They take the same element. -/
theorem next_abreast (hreader : E.ReaderAbreast reader) (h : E.Twins s s') (hq : E.watched q)
    (fuel : Nat) (p : Position) :
    E.Abreast E.Same s s' (Sequence.next E.call reader fuel q p s)
      (Sequence.next E.call reader fuel q p s') := by
  have hlt := E.exists_of_watched hq
  refine (peek_abreast hreader h hq fuel p).bind fun {s₁ s₁' v v'} onward hv => ?_
  rw [Action.view_bind, Action.view_bind, onward.twins.kept.source_eq hlt,
    onward.twins.kept'.source_eq hlt, onward.twins.kept.position_eq hlt,
    onward.twins.kept'.position_eq hlt]
  refine (raw_abreast hreader onward.twins (feeds_of_watched hq) false _).bind
    fun {s₂ s₂' _ _} onward₂ _ => ?_
  have onward₃ := Onward.letGo onward₂.twins hq
  refine .value onward₃ ?_
  exact (hv.keeps onward₂.kept onward₂.kept').keeps onward₃.kept onward₃.kept'

end Sequences

/-- **A reader does the same in stores that are twins**, however deep it reaches. -/
theorem reader_abreast (E : Setting D) (depth : Nat) : E.ReaderAbreast (.ofDepth E.call depth) := by
  induction depth with
  | zero => exact ⟨fun _ _ => .interruption, fun _ _ _ => .interruption⟩
  | succ depth ih =>
    refine ⟨fun h hq => atEnd_abreast ih h hq depth, fun {s s' q} peek h hq => ?_⟩
    have hlt := E.exists_of_watched hq
    have hposition : (s'.sequence q).position = (s.sequence q).position := by
      rw [h.kept.position_eq hlt, h.kept'.position_eq hlt]
    cases peek with
    | true =>
      have hpeek := peek_abreast ih h hq depth (s.sequence q).position
      simp only [Reader.ofDepth, if_true, hposition]
      exact hpeek
    | false =>
      have hnext := next_abreast ih h hq depth (s.sequence q).position
      simp only [Reader.ofDepth, Bool.false_eq_true, if_false, hposition]
      exact hnext

end Setting

end Abacus
