import Mathlib.Data.List.Forall2
import Abacus.Proofs.Sequence.Nested

/-!
# Stores that are twins

Two stores may differ in objects that stand for the same data, and in sources on which a sequence
does not draw. They are twins (`Setting.Twins`) if the sequences that are watched have the same to
come in both: their sources stand at the same place, with the same elements computed already. This is
said of all sequences, also of those that share a source with a sequence that they take from.

**The laws.** Two stores stay twins whatever happens outside of the sources that are read
(`Setting.Twins.beside`), and with the same change in both (`Setting.Twins.modifySource`,
`Setting.Onward.setPending`). A tree that stands in a store stands in its twin (`Setting.Stands.twins`).
-/

namespace Abacus

/-! ## Sources at work -/

namespace Store

/-- Sources that are at work stay as they are. -/
def Spares (s s' : Store) : Prop := ∀ id, (s.source id).busy = true → s'.source id = s.source id

variable {s s' s'' : Store} {id : SourceId}

/-- What two changes in turn spare. -/
theorem Spares.trans (h : s.Spares s') (h' : s'.Spares s'') : s.Spares s'' := by
  intro id busy
  have hsame := h id busy
  exact (h' id (by rw [hsame]; exact busy)).trans hsame

/-- A source that is at work is there. -/
theorem lt_of_busy (busy : (s.source id).busy = true) : id.index < s.sources.size := by
  refine Nat.lt_of_not_le fun hle => ?_
  rw [source, Array.getD_eq_getD_getElem?, Array.getElem?_eq_none hle] at busy
  cases busy

/-- A store that only grows spares everything. -/
theorem Grows.spares (h : s.Grows s') : s.Spares s' :=
  fun _ busy => h.source (lt_of_busy busy) id

/-- A source that is not at work may be changed. -/
theorem spares_modifySource (s : Store) (idle : (s.source id).busy = false) (f : Source → Source) :
    s.Spares (s.modifySource id f) := by
  intro id' busy
  refine source_modifySource_of_ne ?_ f
  rintro rfl
  exact Bool.noConfusion (idle.symm.trans busy)

/-- A source that was made busy stays as it is while its generator is at work. -/
theorem Spares.source_engage (h : (Sequence.engage s id).Spares s') (hid : id.index < s.sources.size) :
    s'.source id = { s.source id with busy := true } := by
  have hsource := Sequence.source_engage hid
  exact (h id (by rw [hsource])).trans hsource

end Store

/-- What relates the values of two options relates them by more. -/
theorem optionRel_imp {α β : Type} {r r' : α → β → Prop} {x : Option α} {y : Option β}
    (hxy : Option.Rel r x y) (h : ∀ {a b}, r a b → r' a b) : Option.Rel r' x y := by
  cases hxy with
  | some hab => exact .some (h hab)
  | none => exact .none

/-- A relation between values that may be missing, read from the other side. -/
theorem optionRel_swap {α β : Type} {r : α → β → Prop} {r' : β → α → Prop} {x : Option α}
    {y : Option β} (hxy : Option.Rel r x y) (h : ∀ {a b}, r a b → r' b a) : Option.Rel r' y x := by
  cases hxy with
  | some hab => exact .some (h hab)
  | none => exact .none

/-- Lists whose elements are related have related elements at each place, or both none. -/
theorem optionRel_getElem? {α β : Type} {r : α → β → Prop} {xs : List α} {ys : List β}
    (h : List.Forall₂ r xs ys) (k : Nat) : Option.Rel r xs[k]? ys[k]? := by
  induction h generalizing k with
  | nil => exact .none
  | cons hab _ ih =>
    cases k with
    | zero => exact .some hab
    | succ k => exact ih k

namespace Setting

variable {D : Type} (E : Setting D)

/-! ## Stores that are twins -/

/-- In two stores, two values stand for one datum. -/
def Same (s s' : Store) (v v' : Value) : Prop :=
  ∃ d, E.reading.means s v d ∧ E.reading.means s' v' d

/-- A watched sequence reads from the source. -/
def Feeds (id : SourceId) : Prop := ∃ q, E.watched q ∧ (E.start.sequence q).source = id

/-- In two stores, two generators have the same to give: they stand at the same place, and what they
know already stands for the same data. Their functions are effect-free, and they take from watched
sequences only. -/
inductive Matches (s s' : Store) : Generator → Generator → Prop
  | index {f : Value} {k : Nat} {limit : Option Int} {cached cached' : Option Value} {p : Position} :
    E.reading.EffectFree E.call E.start f → Option.Rel (E.Same s s') cached cached' →
    Matches s s' (.index f k limit cached p) (.index f k limit cached' p)
  | iterate {f : Value} {upcoming upcoming' previous previous' : Option Value} {p : Position} :
    E.reading.EffectFree E.call E.start f → Option.Rel (E.Same s s') upcoming upcoming' →
    Option.Rel (E.Same s s') previous previous' →
    Matches s s' (.iterate f upcoming previous p) (.iterate f upcoming' previous' p)
  | range {current stop step : Number} {p : Position} :
    Matches s s' (.range current stop step p) (.range current stop step p)
  | vector {items : VectorId} {k : Nat} {p : Position} : items.index < s.vectors.size →
    items.index < s'.vectors.size → List.Forall₂ (E.Same s s') (s.items items) (s'.items items) →
    Matches s s' (.vector items k p) (.vector items k p)
  | zip {l r : SequenceId} : E.watched l → E.watched r → Matches s s' (.zip l r) (.zip l r)
  | take {q : SequenceId} {n : Nat} : E.watched q → Matches s s' (.take q n) (.take q n)

/-- In two stores, the watched sequences have the same to come: what their sources have to give, and
what they hold already. -/
structure Twins (s s' : Store) : Prop where
  kept : E.start.Keeps E.own s
  kept' : E.start.Keeps E.own s'
  own : ∀ {id}, E.Feeds id → E.own id
  lt : ∀ {id}, E.Feeds id → id.index < E.start.sources.size
  busy : ∀ {id}, E.Feeds id → (s.source id).busy = (s'.source id).busy
  advanced : ∀ {id}, E.Feeds id → (s.source id).advanced = (s'.source id).advanced
  generator : ∀ {id}, E.Feeds id → E.Matches s s' (s.source id).generator (s'.source id).generator
  pending : ∀ {q}, E.watched q → Option.Rel (fun a b => a.1 = b.1 ∧ E.Same s s' a.2 b.2)
    (s.sequence q).pending (s'.sequence q).pending

/-- The watched sequences draw on each other only, all functions on which they draw are effect-free,
and all that is known of their elements stands for data. -/
def Closed : Prop := E.Twins E.start E.start

/-- Where two runs have got from two stores. -/
structure Onward (s s' s₁ s₁' : Store) : Prop where
  twins : E.Twins s₁ s₁'
  kept : s.Keeps E.own s₁
  kept' : s'.Keeps E.own s₁'
  spares : s.Spares s₁

variable {E} {s s' s₁ s₁' s₂ s₂' : Store} {v v' : Value} {id : SourceId} {q : SequenceId}

/-- The source of a watched sequence feeds it. -/
theorem feeds_of_watched (hq : E.watched q) : E.Feeds (E.start.sequence q).source := ⟨q, hq, rfl⟩

/-- Two values are the same from either side. -/
theorem Same.symm (h : E.Same s s' v v') : E.Same s' s v' v := by
  obtain ⟨d, hd, hd'⟩ := h
  exact ⟨d, hd', hd⟩

/-- And stay the same while both stores keep what they had. -/
theorem Same.keeps (h : E.Same s s' v v') (kept : s.Keeps E.own s₁) (kept' : s'.Keeps E.own s₁') :
    E.Same s₁ s₁' v v' := by
  obtain ⟨d, hd, hd'⟩ := h
  exact ⟨d, E.reading.means_keeps kept hd, E.reading.means_keeps kept' hd'⟩

/-- Generators that have the same to give take from the same. -/
theorem Matches.references {g g' : Generator} (h : E.Matches s s' g g') :
    g'.references = g.references := by
  cases h <;> rfl

/-- Two generators match from either side. -/
theorem Matches.symm {g g' : Generator} (h : E.Matches s s' g g') : E.Matches s' s g' g := by
  cases h with
  | index free hcached => exact .index free (optionRel_swap hcached .symm)
  | iterate free hupcoming hprevious =>
    exact .iterate free (optionRel_swap hupcoming .symm) (optionRel_swap hprevious .symm)
  | range => exact .range
  | vector hlt hlt' hitems => exact .vector hlt' hlt (hitems.flip.imp fun _ _ => .symm)
  | zip hl hr => exact .zip hl hr
  | take hq => exact .take hq

/-- And match while both stores keep what they had. -/
theorem Matches.keeps {g g' : Generator} (h : E.Matches s s' g g') (kept : s.Keeps E.own s₁)
    (kept' : s'.Keeps E.own s₁') : E.Matches s₁ s₁' g g' := by
  have carry : ∀ {v v'}, E.Same s s' v v' → E.Same s₁ s₁' v v' := fun h => h.keeps kept kept'
  cases h with
  | index free hcached => exact .index free (optionRel_imp hcached carry)
  | iterate free hupcoming hprevious =>
    exact .iterate free (optionRel_imp hupcoming carry) (optionRel_imp hprevious carry)
  | range => exact .range
  | vector hlt hlt' hitems =>
    refine .vector (Nat.lt_of_lt_of_le hlt kept.size_vectors)
      (Nat.lt_of_lt_of_le hlt' kept'.size_vectors) ?_
    rw [Store.items, Store.items, kept.vector hlt, kept'.vector hlt']
    exact hitems.imp fun _ _ => carry
  | zip hl hr => exact .zip hl hr
  | take hq => exact .take hq

/-- Two stores are twins from either side. -/
protected theorem Twins.symm (h : E.Twins s s') : E.Twins s' s where
  kept := h.kept'
  kept' := h.kept
  own := h.own
  lt := h.lt
  busy hid := (h.busy hid).symm
  advanced hid := (h.advanced hid).symm
  generator hid := (h.generator hid).symm
  pending hq := optionRel_swap (h.pending hq) fun ⟨hn, hv⟩ => ⟨hn.symm, hv.symm⟩

/-- Two stores stay twins whatever happens outside of the sources that are read. -/
theorem Twins.beside {own own' : SourceId → Prop} (h : E.Twins s s') (kept : s.Keeps own s₁)
    (kept' : s'.Keeps own' s₁') (sub : ∀ id, own id → E.own id) (sub' : ∀ id, own' id → E.own id)
    (apart : ∀ id, E.Feeds id → ¬ own id) (apart' : ∀ id, E.Feeds id → ¬ own' id) :
    E.Twins s₁ s₁' := by
  have hkept := kept.mono sub
  have hkept' := kept'.mono sub'
  have same : ∀ {id}, E.Feeds id →
      s₁.source id = s.source id ∧ s₁'.source id = s'.source id := fun {id} hid =>
    ⟨kept.source (Nat.lt_of_lt_of_le (h.lt hid) h.kept.size_sources) (apart id hid),
      kept'.source (Nat.lt_of_lt_of_le (h.lt hid) h.kept'.size_sources) (apart' id hid)⟩
  refine ⟨h.kept.trans hkept, h.kept'.trans hkept', h.own, h.lt, fun hid => ?_, fun hid => ?_,
    fun hid => ?_, fun {q} hq => ?_⟩
  · rw [(same hid).1, (same hid).2]
    exact h.busy hid
  · rw [(same hid).1, (same hid).2]
    exact h.advanced hid
  · rw [(same hid).1, (same hid).2]
    exact (h.generator hid).keeps hkept hkept'
  · have hlt := exists_of_kept h.kept hq
    have hlt' := exists_of_kept h.kept' hq
    have hfeeds := feeds_of_watched hq
    rw [kept.pending hlt (by rw [h.kept.source_eq (E.exists_of_watched hq)]; exact apart _ hfeeds),
      kept'.pending hlt' (by rw [h.kept'.source_eq (E.exists_of_watched hq)]; exact apart' _ hfeeds)]
    exact optionRel_imp (h.pending hq) fun ⟨hn, hv⟩ => ⟨hn, hv.keeps hkept hkept'⟩

/-- A sequence that is watched is over the same source in both stores. -/
theorem Twins.source_eq (h : E.Twins s s') (hq : E.watched q) :
    (s'.sequence q).source = (s.sequence q).source := by
  have hlt := E.exists_of_watched hq
  rw [h.kept.source_eq hlt, h.kept'.source_eq hlt]

/-- In twins a watched sequence has the same functions. -/
theorem Twins.pipe_eq (h : E.Twins s s') (hq : E.watched q) :
    (s'.sequence q).pipe = (s.sequence q).pipe := by
  have hlt := E.exists_of_watched hq
  rw [Setting.pipe_eq h.kept hlt, Setting.pipe_eq h.kept' hlt]

/-- Where a watched sequence reads, there is a source that feeds it. -/
theorem Twins.feeds (h : E.Twins s s') (hq : E.watched q) :
    E.Feeds (s.sequence q).source ∧ (s.sequence q).source.index < s.sources.size := by
  have hfeeds := feeds_of_watched hq
  rw [h.kept.source_eq (E.exists_of_watched hq)]
  exact ⟨hfeeds, Nat.lt_of_lt_of_le (h.lt hfeeds) h.kept.size_sources⟩

namespace Onward

/-- Nothing has happened yet. -/
protected theorem refl (h : E.Twins s s') : E.Onward s s' s s' :=
  ⟨h, .refl _ _, .refl _ _, fun _ _ => rfl⟩

/-- Twins that go on go on again. -/
protected theorem trans (h : E.Onward s s' s₁ s₁') (h' : E.Onward s₁ s₁' s₂ s₂') :
    E.Onward s s' s₂ s₂' :=
  ⟨h'.twins, h.kept.trans h'.kept, h.kept'.trans h'.kept', h.spares.trans h'.spares⟩

/-- Stores that only grow stay twins. -/
theorem of_grows (h : E.Twins s s') (grown : s.Grows s₁) (grown' : s'.Grows s₁') :
    E.Onward s s' s₁ s₁' :=
  ⟨h.beside grown grown' (fun _ h => h.elim) (fun _ h => h.elim) (fun _ _ h => h) fun _ _ h => h,
    grown.keeps _, grown'.keeps _, grown.spares⟩

end Onward

/-- Two stores stay twins if a source changes in both of them. -/
theorem Twins.modifySource (h : E.Twins s s') (hid : E.Feeds id) {f f' : Source → Source}
    (references : (f (s.source id)).generator.references = (s.source id).generator.references)
    (references' : (f' (s'.source id)).generator.references = (s'.source id).generator.references)
    (busy : (f (s.source id)).busy = (f' (s'.source id)).busy)
    (advanced : (f (s.source id)).advanced = (f' (s'.source id)).advanced)
    (generator : E.Matches s s' (f (s.source id)).generator (f' (s'.source id)).generator) :
    E.Twins (s.modifySource id f) (s'.modifySource id f') := by
  have kept := Store.keeps_modifySource s (h.own hid) references
  have kept' := Store.keeps_modifySource s' (h.own hid) references'
  have hlt := Nat.lt_of_lt_of_le (h.lt hid) h.kept.size_sources
  have hlt' := Nat.lt_of_lt_of_le (h.lt hid) h.kept'.size_sources
  -- what holds of the source that changes and of the others holds of all
  have changed : ∀ {P : Source → Source → Prop}, P (f (s.source id)) (f' (s'.source id)) →
      (∀ {other}, E.Feeds other → P (s.source other) (s'.source other)) → ∀ {other}, E.Feeds other →
      P ((s.modifySource id f).source other) ((s'.modifySource id f').source other) := by
    intro P here others other ho
    by_cases e : other = id
    · subst e
      rwa [Store.source_modifySource_self hlt, Store.source_modifySource_self hlt']
    · rw [Store.source_modifySource_of_ne e, Store.source_modifySource_of_ne e]
      exact others ho
  refine ⟨h.kept.trans kept, h.kept'.trans kept', h.own, h.lt,
    changed (P := fun a b => a.busy = b.busy) busy h.busy,
    changed (P := fun a b => a.advanced = b.advanced) advanced h.advanced,
    fun hother => ?_, fun hq => ?_⟩
  · exact (changed (P := fun a b => E.Matches s s' a.generator b.generator) generator h.generator
      hother).keeps kept kept'
  · exact optionRel_imp (h.pending hq) fun ⟨hn, hv⟩ => ⟨hn, hv.keeps kept kept'⟩

/-- Two stores stay twins if a sequence holds the same in both of them. -/
theorem Onward.setPending (h : E.Twins s s') (hq : E.watched q) {p p' : Option (Nat × Value)}
    (hp : Option.Rel (fun a b => a.1 = b.1 ∧ E.Same s s' a.2 b.2) p p') :
    E.Onward s s' (s.setPending q p) (s'.setPending q p') := by
  have hown := h.own (feeds_of_watched hq)
  have kept : s.Keeps E.own (s.setPending q p) :=
    Store.keeps_setPending s (by rwa [h.kept.source_eq (E.exists_of_watched hq)]) p
  have kept' : s'.Keeps E.own (s'.setPending q p') :=
    Store.keeps_setPending s' (by rwa [h.kept'.source_eq (E.exists_of_watched hq)]) p'
  refine ⟨⟨h.kept.trans kept, h.kept'.trans kept', h.own, h.lt, h.busy, h.advanced,
    fun hid => (h.generator hid).keeps kept kept', fun {other} ho => ?_⟩, kept, kept',
    fun _ _ => rfl⟩
  by_cases e : other = q
  · subst e
    rw [Store.sequence_setPending_self (exists_of_kept h.kept ho),
      Store.sequence_setPending_self (exists_of_kept h.kept' ho)]
    exact optionRel_imp hp fun ⟨hn, hv⟩ => ⟨hn, hv.keeps kept kept'⟩
  · rw [Store.sequence_setPending_of_ne e, Store.sequence_setPending_of_ne e]
    exact optionRel_imp (h.pending ho) fun ⟨hn, hv⟩ => ⟨hn, hv.keeps kept kept'⟩

/-- Twins that look ahead to the same value stay twins. -/
theorem Onward.hold (h : E.Twins s s') (hq : E.watched q) {n n' : Nat} (hn : n = n')
    (hv : E.Same s s' v v') :
    E.Onward s s' (s.setPending q (some (n, v))) (s'.setPending q (some (n', v'))) :=
  .setPending h hq (.some ⟨hn, hv⟩)

/-- Twins that forget it stay twins. -/
theorem Onward.letGo (h : E.Twins s s') (hq : E.watched q) :
    E.Onward s s' (s.setPending q none) (s'.setPending q none) :=
  .setPending h hq .none

/-! ## Supplies in twins -/

section Unique

variable (unique : ∀ s, Relator.RightUnique (E.reading.means s))

include unique

/-- Where a value stands for one datum alone, it stands in the other store for the same. -/
theorem Same.means {d : D} (h : E.Same s s' v v') (hv : E.reading.means s v d) :
    E.reading.means s' v' d := by
  obtain ⟨d', hd, hd'⟩ := h
  rwa [unique s hv hd]

/-- Values that are the same mean the same. -/
theorem all_same {vs ws : List Value} {ds : List D} (h : List.Forall₂ (E.Same s s') vs ws)
    (hvs : List.Forall₂ (E.reading.means s) vs ds) : List.Forall₂ (E.reading.means s') ws ds := by
  induction h generalizing ds with
  | nil =>
    cases hvs
    exact .nil
  | cons hv _ ih =>
    cases hvs with
    | cons hd hds => exact .cons (hv.means unique hd) (ih hds)

/-- A generator that matches one at a place of a stream is at that place. -/
theorem At.twins {r : Nat → Except Interruption (Option D)} {k : Nat} {g g' : Generator}
    (h : E.At s r k g) (hg : E.Matches s s' g g') : E.At s' r k g' := by
  cases h with
  | index free hr hcached =>
    cases hg with
    | index _ hsame =>
      refine .index free hr fun v' hv' => ?_
      subst hv'
      cases hsame with
      | some hv =>
        obtain ⟨d, hd, hm⟩ := hcached _ rfl
        exact ⟨d, hd, hv.means unique hm⟩
  | upcoming free hr hd hm =>
    cases hg with
    | iterate _ hupcoming _ =>
      cases hupcoming with
      | some hv => exact .upcoming free hr hd (hv.means unique hm)
  | previous free hr hd hm =>
    cases hg with
    | iterate _ hupcoming hprevious =>
      cases hupcoming
      cases hprevious with
      | some hv => exact .previous free hr hd (hv.means unique hm)
  | range hr =>
    cases hg
    exact .range hr
  | @vector items _ _ _ hsome hnone =>
    cases hg with
    | vector _ hlt' hitems =>
      have hrel := optionRel_getElem? hitems
      simp only [Store.items, Array.getElem?_toList] at hrel
      refine .vector hlt' (fun j v' hj => ?_) (fun j hj => ?_)
      · have hat := hrel j
        rw [hj] at hat
        generalize hv : (s.vector items)[j]? = v at hat
        cases hat with
        | some hsame =>
          obtain ⟨d, hd, hm⟩ := hsome j _ hv
          exact ⟨d, hd, hsame.means unique hm⟩
      · have hat := hrel j
        rw [hj] at hat
        generalize hv : (s.vector items)[j]? = v at hat
        cases hat
        exact hnone j hv

/-- What a sequence holds in a store is coherent in its twin. -/
theorem Coherent.twins {u : Supply D} (twins : E.Twins s s') (hq : E.watched q)
    (h : E.Coherent s q u) : E.Coherent s' q u := by
  have hcount := twins.advanced (twins.feeds hq).1
  have hpending := twins.pending hq
  intro n v' hp'
  rw [hp'] at hpending
  cases hp : (s.sequence q).pending with
  | none =>
    rw [hp] at hpending
    cases hpending
  | some a =>
    rw [hp] at hpending
    cases hpending with
    | some hsame =>
      obtain ⟨rfl, hv⟩ := hsame
      obtain ⟨hle, hlive⟩ := h _ _ hp
      rw [twins.source_eq hq, ← hcount]
      refine ⟨hle, fun hn => ?_⟩
      obtain ⟨d, hseek, hm⟩ := hlive hn
      refine ⟨d, ?_, hv.means unique hm⟩
      rwa [twins.pipe_eq hq]

mutual

/-- What supplies a generator in one store supplies its match in the twin. -/
theorem Supplies.twins (twins : E.Twins s s') {g g' : Generator} {u : Supply D} {W : List SourceId} :
    E.Supplies s g u W → E.Matches s s' g g' → E.Supplies s' g' u W
  | .raw h, hg => .raw (h.twins unique hg)
  | .take hq h, .take _ => by
    rw [← twins.pipe_eq hq]
    refine .take hq ?_
    rw [twins.source_eq hq]
    exact h.twins twins (twins.feeds hq).1
  | .zip hl hr h h' disjoint, .zip _ _ => by
    rw [← twins.pipe_eq hl, ← twins.pipe_eq hr]
    refine .zip hl hr ?_ ?_ disjoint
    · rw [twins.source_eq hl]
      exact h.twins twins (twins.feeds hl).1
    · rw [twins.source_eq hr]
      exact h'.twins twins (twins.feeds hr).1

/-- **A tree that stands in a store stands in its twin.** -/
theorem Stands.twins (twins : E.Twins s s') {id : SourceId} {u : Supply D} {W : List SourceId} :
    E.Stands s id u W → E.Feeds id → E.Stands s' id u W
  | .mk hlt hown idle counted h hnot coherent, hid => by
    refine .mk (Nat.lt_of_lt_of_le (twins.lt hid) twins.kept'.size_sources) hown ?_ ?_
      (h.twins twins (twins.generator hid)) hnot fun q hq hqid => ?_
    · rw [← twins.busy hid, idle]
    · rw [← twins.advanced hid]
      exact counted
    · refine (coherent q hq ?_).twins unique twins hq
      rw [← hqid, twins.source_eq hq]

end

end Unique

end Setting

end Abacus
