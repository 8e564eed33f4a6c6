import Abacus.Proofs.Sequence.Forest
import Abacus.Proofs.Sequence.Taking

/-!
# Sequences apart

Of a setting, the sequences that draw on one source make up a setting of their own
(`Setting.under`): they are over sources that the source draws on, and take from each other only. Two
sources that draw on nothing in common have settings that do not touch each other. So two sequences
may be read in one store, in any order, as each of them is read in a store of its own
(`Setting.Parallel`).

**The law** (`Setting.Twins.keeps_feeds`): a read of a watched sequence leaves everything as it was but
the sources of watched sequences. With `Setting.Twins.beside` it follows that two sequences apart stay
in parallel whichever of them is read (`Setting.Parallel.read_left`, `Setting.Parallel.read_right`).
-/

namespace Abacus

/-- What is drawn on by something drawn on. -/
theorem Store.Draws.trans {s : Store} {a b c : SourceId} (h : s.Draws a b) (h' : s.Draws b c) :
    s.Draws a c := by
  induction h with
  | self => exact h'
  | through hq _ ih => exact .through hq (ih h')

/-- A reading answers in particular where fewer sources may move. -/
def Reading.narrow {own own' : SourceId → Prop} {D : Type} (R : Reading own D)
    (sub : ∀ id, own' id → own id) : Reading own' D :=
  { R with means_keeps := fun kept => R.means_keeps (kept.mono sub) }

namespace Reader

variable {reader : Reader} {q : SequenceId} {n : Nat} {vs : List Value} {s s' : Store}

/-- Who reads a sequence alone finds it at its end, or gets an element and goes on. -/
theorem of_first_succ (h : reader.first q (n + 1) s = .ok vs s') :
    (vs = [] ∧ reader.atEnd q s = .ok true s') ∨
      ∃ v rest t t', vs = v :: rest ∧ reader.atEnd q s = .ok false t ∧
        reader.next q false t = .ok v t' ∧ reader.first q n t' = .ok rest s' := by
  obtain ⟨done, t, hend, h⟩ := Action.of_bind_ok h
  cases done with
  | true =>
    cases h
    exact .inl ⟨rfl, hend⟩
  | false =>
    obtain ⟨v, t', hnext, h⟩ := Action.of_bind_ok (x := reader.next q false) h
    obtain ⟨rest, _, hrest, h⟩ := Action.of_bind_ok h
    cases h
    exact .inr ⟨v, rest, t, t', rfl, hend, hnext, hrest⟩

/-- No more elements are read than are asked for. -/
theorem length_first_le (h : reader.first q n s = .ok vs s') : vs.length ≤ n := by
  induction n generalizing s vs with
  | zero =>
    cases h
    exact Nat.le_refl _
  | succ n ih =>
    obtain ⟨rfl, -⟩ | ⟨v, rest, t, t', rfl, -, -, hrest⟩ := of_first_succ h
    · exact Nat.zero_le _
    · exact Nat.succ_le_succ (ih hrest)

/-- Who reads fewer elements gets the first of them. -/
theorem first_take (h : reader.first q n s = .ok vs s') {k : Nat} (hk : k ≤ n) :
    ∃ t, reader.first q k s = .ok (vs.take k) t := by
  induction n generalizing s vs k with
  | zero =>
    cases h
    cases Nat.le_zero.mp hk
    exact ⟨_, rfl⟩
  | succ n ih =>
    cases k with
    | zero => exact ⟨s, rfl⟩
    | succ k =>
      obtain ⟨rfl, hend⟩ | ⟨v, rest, t, t', rfl, hend, hnext, hrest⟩ := of_first_succ h
      · refine ⟨s', ?_⟩
        rw [first, Action.bind_ok hend]
        rfl
      · obtain ⟨t'', hfirst⟩ := ih hrest (Nat.le_of_succ_le_succ hk)
        refine ⟨t'', ?_⟩
        rw [first, Action.bind_ok hend]
        show (reader.next q false >>= _) t = _
        rw [Action.bind_ok hnext, Action.bind_ok hfirst]
        rfl

end Reader

namespace Setting

variable {D : Type} {E : Setting D} {s s' s₁ s₁' s₂ s₂' : Store} {q : SequenceId} {depth : Nat}
  {v : Value} {done : Bool}

/-! ## What a read touches -/

/-- A value that is the same as another is known. -/
theorem Same.left {w : Value} (h : E.Same s s' v w) : E.Same s s v v := by
  obtain ⟨d, hd, -⟩ := h
  exact ⟨d, hd, hd⟩

/-- So is a generator that matches another. -/
theorem Matches.left {g g' : Generator} (h : E.Matches s s' g g') : E.Matches s s g g := by
  have self : ∀ {o o' : Option Value}, Option.Rel (E.Same s s') o o' →
      Option.Rel (E.Same s s) o o := fun h => by
    cases h with
    | some h => exact .some h.left
    | none => exact .none
  cases h with
  | index free hcached => exact .index free (self hcached)
  | iterate free hupcoming hprevious => exact .iterate free (self hupcoming) (self hprevious)
  | range => exact .range
  | vector hlt _ hitems =>
    refine .vector hlt hlt (List.forall₂_same.mpr fun v hv => ?_)
    obtain ⟨k, hk⟩ := List.getElem?_of_mem hv
    have hat := optionRel_getElem? hitems k
    rw [hk] at hat
    generalize (s'.items _)[k]? = o at hat
    cases hat with
    | some h => exact h.left
  | zip hl hr => exact .zip hl hr
  | take hq => exact .take hq

/-- The setting in which a store is where the run starts, and the sources of watched sequences are all
that may move. -/
def confined (h : E.Twins s s') : Setting D where
  own := E.Feeds
  reading := E.reading.narrow fun _ => h.own
  stream := E.stream
  limit := E.limit
  call := E.call
  start := s
  watched := E.watched
  exists_of_watched := exists_of_kept h.kept
  free_of_watched {q} hq t ht := by
    rw [h.kept.transformers_eq (E.exists_of_watched hq)] at ht
    exact fun s v d p kept => E.free_of_watched hq t ht p (h.kept.trans (kept.mono fun _ => h.own))

/-- What feeds the confined sequences feeds them anyway. -/
theorem feeds_confined (h : E.Twins s s') {id : SourceId} (hid : (confined h).Feeds id) : E.Feeds id := by
  obtain ⟨q, hq, hsource⟩ := hid
  exact ⟨q, hq, (h.kept.source_eq (E.exists_of_watched hq)).symm.trans hsource⟩

/-- The confined part refers to nothing outside it. -/
theorem closed_confined (h : E.Twins s s') : (confined h).Closed where
  kept := .refl _ _
  kept' := .refl _ _
  own := feeds_confined h
  lt hid := Nat.lt_of_lt_of_le (h.lt (feeds_confined h hid)) h.kept.size_sources
  busy _ := rfl
  advanced _ := rfl
  generator hid := by
    have free : ∀ {f : Value}, E.reading.EffectFree E.call E.start f →
        (confined h).reading.EffectFree E.call s f := fun free _ _ _ p kept =>
      free p (h.kept.trans (kept.mono fun _ => h.own))
    have self := (h.generator (feeds_confined h hid)).left
    show (confined h).Matches s s (s.source _).generator (s.source _).generator
    generalize (s.source _).generator = g at self
    cases self with
    | index hf hcached => exact .index (free hf) hcached
    | iterate hf hupcoming hprevious => exact .iterate (free hf) hupcoming hprevious
    | range => exact .range
    | vector hlt hlt' hitems => exact .vector hlt hlt' hitems
    | zip hl hr => exact .zip hl hr
    | take hq => exact .take hq
  pending hq := by
    have self := h.pending hq
    show Option.Rel _ (s.sequence _).pending (s.sequence _).pending
    generalize (s.sequence _).pending = o at self
    generalize (s'.sequence _).pending = o' at self
    cases self with
    | some hab => exact .some ⟨rfl, hab.2.left⟩
    | none => exact .none

/-- How far a read has got in a store that goes as it does in another one: everything is as it was but
the sources of watched sequences. -/
structure Along (E : Setting D) (s s' s₁ s₁' : Store) : Prop where
  onward : E.Onward s s' s₁ s₁'
  keeps : s.Keeps E.Feeds s₁

/-- **A read leaves everything as it was but the sources of watched sequences.** -/
theorem Twins.keeps_feeds (h : E.Twins s s') (hq : E.watched q) :
    (∀ {o}, Sequence.lookahead E.call (.ofDepth E.call depth) depth q s = .ok o s₁ →
      s.Keeps E.Feeds s₁) ∧
    (∀ {peek v}, (Reader.ofDepth E.call depth).next q peek s = .ok v s₁ → s.Keeps E.Feeds s₁) := by
  have closed := closed_confined h
  refine ⟨fun {o} hlook => ?_, fun {peek v} hnext => ?_⟩
  · have abreast := lookahead_abreast (reader_abreast (confined h) depth) closed hq depth
    rw [show Sequence.lookahead (confined h).call (.ofDepth (confined h).call depth) depth q
      (confined h).start = .ok o s₁ from hlook] at abreast
    cases abreast with
    | value onward => exact onward.kept
  · have abreast := (reader_abreast (confined h) depth).next peek closed hq
    rw [show (Reader.ofDepth (confined h).call depth).next q peek (confined h).start = .ok v s₁ from hnext]
      at abreast
    cases abreast with
    | value onward => exact onward.kept

/-- What is asked in one store is asked in its twin with the same answer; an element that is found is
held. -/
theorem Twins.atEnd_along (h : E.Twins s s') (hq : E.watched q)
    (hrun : (Reader.ofDepth E.call (depth + 1)).atEnd q s' = .ok done s₁') :
    ∃ s₁, (Reader.ofDepth E.call (depth + 1)).atEnd q s = .ok done s₁ ∧ E.Along s s' s₁ s₁' ∧
      (done = false → ∃ v, s₁.Holds q v) := by
  have looked := lookahead_abreast (reader_abreast E depth) h hq depth
  generalize hx : Sequence.lookahead _ _ depth q s = rx at looked
  generalize hy : Sequence.lookahead _ _ depth q s' = ry at looked
  cases looked with
  | interruption => cases hrun.symm.trans (Reader.atEnd_error hy)
  | @value o o' s₁ _ onward ho =>
    cases hrun.symm.trans (Reader.atEnd_ok hy)
    cases ho with
    | none => exact ⟨s₁, Reader.atEnd_ok hx, ⟨onward, (h.keeps_feeds hq).1 hx⟩, fun h => nomatch h⟩
    | @some v _ hv =>
      exact ⟨s₁, (Reader.atEnd_ok hx :), ⟨onward, (h.keeps_feeds hq).1 hx⟩, fun _ => ⟨v, hv.2⟩⟩

/-- What is had in one store is had in its twin. -/
theorem Twins.next_along (h : E.Twins s s') (hq : E.watched q) {peek : Bool} {v' : Value}
    (hrun : (Reader.ofDepth E.call depth).next q peek s' = .ok v' s₁') :
    ∃ v s₁, (Reader.ofDepth E.call depth).next q peek s = .ok v s₁ ∧ E.Along s s' s₁ s₁' ∧
      E.Same s₁ s₁' v v' := by
  have given := (reader_abreast E depth).next peek h hq
  rw [hrun] at given
  generalize hx : (Reader.ofDepth E.call depth).next q peek s = rx at given
  cases given with
  | @value v _ s₁ _ onward hv => exact ⟨v, s₁, rfl, ⟨onward, (h.keeps_feeds hq).2 hx⟩, hv⟩

/-- What a sequence holds is held whatever happens outside of its source. -/
theorem Twins.holds {own : SourceId → Prop} (h : E.Twins s s') (hq : E.watched q)
    (holds : s.Holds q v) (keeps : s.Keeps own s₁) (other : ¬ own (E.start.sequence q).source) :
    s₁.Holds q v := by
  refine holds.keeps keeps (exists_of_kept h.kept hq) (h.feeds hq).2 ?_
  rwa [h.kept.source_eq (E.exists_of_watched hq)]

/-- A sequence gives the same whether it has been asked before or not. -/
theorem Twins.next_of_atEnd (h : E.Twins s s') (hq : E.watched q)
    (hrun : (Reader.ofDepth E.call (depth + 1)).atEnd q s = .ok false s₁) :
    (Reader.ofDepth E.call (depth + 1)).next q false s =
      (Reader.ofDepth E.call (depth + 1)).next q false s₁ := by
  have looked := lookahead_abreast (reader_abreast E depth) h hq depth
  generalize hx : Sequence.lookahead _ _ depth q s = rx at looked
  generalize Sequence.lookahead _ _ depth q s' = ry at looked
  cases looked with
  | interruption => cases hrun.symm.trans (Reader.atEnd_error hx)
  | @value o _ _ _ onward ho =>
    have e := hrun.symm.trans (Reader.atEnd_ok hx)
    cases ho with
    | none => cases e
    | some hv =>
      cases e
      show Sequence.next _ _ depth q (s.sequence q).position s =
        Sequence.next _ _ depth q (s₁.sequence q).position s₁
      rw [Sequence.next_some hx, Sequence.next_some (Sequence.lookahead_of_holds hv.2)]

/-- What is read alone keeps what lies outside of the sources that are read. -/
theorem Twins.first_keeps (h : E.Twins s s') (hq : E.watched q) {n : Nat} {vs : List Value}
    (hrun : (Reader.ofDepth E.call (depth + 1)).first q n s' = .ok vs s₁') : s'.Keeps E.own s₁' := by
  induction n generalizing s s' vs with
  | zero =>
    cases hrun
    exact .refl _ _
  | succ n ih =>
    obtain ⟨-, hend⟩ | ⟨v, rest, t, t', -, hend, hnext, hrest⟩ := Reader.of_first_succ hrun
    · obtain ⟨_, -, along, -⟩ := h.atEnd_along hq hend
      exact along.onward.kept'
    · obtain ⟨_, -, along, -⟩ := h.atEnd_along hq hend
      obtain ⟨_, _, -, along', -⟩ := along.onward.twins.next_along hq hnext
      exact (along.onward.kept'.trans along'.onward.kept').trans (ih along'.onward.twins hrest)

/-! ## Sequences under a source -/

/-- Of a setting, the sequences over sources that a source draws on. -/
def under (E : Setting D) (root : SourceId) : Setting D :=
  { E with
    watched := fun q => E.watched q ∧ E.start.Draws root (E.start.sequence q).source
    exists_of_watched := fun h => E.exists_of_watched h.1
    free_of_watched := fun h => E.free_of_watched h.1 }

/-- What feeds the sequences under a source is below that source. -/
theorem feeds_under {root id : SourceId} (h : (E.under root).Feeds id) :
    E.Feeds id ∧ E.start.Draws root id := by
  obtain ⟨q, ⟨hq, hdraws⟩, rfl⟩ := h
  exact ⟨⟨q, hq, rfl⟩, hdraws⟩

/-- Twins are twins for the sequences under a source, which take from each other only. -/
theorem Twins.under (h : E.Twins s s') (root : SourceId) : (E.under root).Twins s s' where
  kept := h.kept
  kept' := h.kept'
  own hid := h.own (feeds_under hid).1
  lt hid := h.lt (feeds_under hid).1
  busy hid := h.busy (feeds_under hid).1
  advanced hid := h.advanced (feeds_under hid).1
  generator {id} hid := by
    obtain ⟨hfeeds, hdraws⟩ := feeds_under hid
    have references := h.kept.references (h.lt hfeeds)
    have drawn : ∀ {q}, q ∈ (s.source id).generator.references →
        E.start.Draws root (E.start.sequence q).source := fun hq =>
      hdraws.trans (.through (references ▸ hq) .self)
    have same := h.generator hfeeds
    generalize hg : (s.source id).generator = g at same drawn
    generalize (s'.source id).generator = g' at same
    cases same with
    | index free hcached => exact .index free hcached
    | iterate free hupcoming hprevious => exact .iterate free hupcoming hprevious
    | range => exact .range
    | vector hlt hlt' hitems => exact .vector hlt hlt' hitems
    | zip hl hr =>
      exact .zip ⟨hl, drawn List.mem_cons_self⟩ ⟨hr, drawn (List.mem_cons_of_mem _ List.mem_cons_self)⟩
    | take hq => exact .take ⟨hq, drawn List.mem_cons_self⟩
  pending hq := h.pending hq.1

/-- The sequences under the source of a sequence. -/
abbrev side (E : Setting D) (q : SequenceId) : Setting D := E.under (E.start.sequence q).source

/-- A sequence is watched on its own side. -/
theorem watched_side (hq : E.watched q) : (E.side q).watched q := ⟨hq, .self⟩

/-! ## Two sequences in one store -/

/-- Two sequences draw on no source in common. -/
def Apart (E : Setting D) (l r : SequenceId) : Prop :=
  ∀ id, E.start.Draws (E.start.sequence l).source id → ¬ E.start.Draws (E.start.sequence r).source id

/-- In a store, two sequences are as each of them is in a store of its own. -/
structure Parallel (E : Setting D) (l r : SequenceId) (s s₁ s₂ : Store) : Prop where
  left : (E.side l).Twins s s₁
  right : (E.side r).Twins s s₂

section Parallel

variable {l r : SequenceId} {t : Store}

/-- Two sequences are apart from either side. -/
theorem Apart.symm (h : E.Apart l r) : E.Apart r l := fun id hr hl => h id hl hr

/-- What is read of one side leaves the other one as it was. -/
theorem Apart.beside (apart : E.Apart l r) (h : (E.side r).Twins s s₂) (closed : E.Closed)
    (keeps : s.Keeps (E.side l).Feeds t) : (E.side r).Twins t s₂ := by
  refine h.beside keeps (Store.Keeps.refl (fun _ => False) s₂) (fun id hid => ?_) (fun _ h => h.elim)
    (fun id hid hl => ?_) fun _ _ h => h
  · exact closed.own (feeds_under hid).1
  · exact apart id (feeds_under hl).2 (feeds_under hid).2

/-- Reading the left side leaves the right one where it stands. -/
theorem Parallel.read_left (h : E.Parallel l r s s₁ s₂) (apart : E.Apart l r) (closed : E.Closed)
    (along : (E.side l).Along s s₁ t s₁') : E.Parallel l r t s₁' s₂ :=
  ⟨along.onward.twins, apart.beside h.right closed along.keeps⟩

/-- Reading the right side leaves the left one. -/
theorem Parallel.read_right (h : E.Parallel l r s s₁ s₂) (apart : E.Apart l r) (closed : E.Closed)
    (along : (E.side r).Along s s₂ t s₂') : E.Parallel l r t s₁ s₂' :=
  ⟨apart.symm.beside h.left closed along.keeps, along.onward.twins⟩

/-- Two sequences stay as they are whatever happens outside of the sources of watched sequences. -/
theorem Parallel.beside {own : SourceId → Prop} (h : E.Parallel l r s s₁ s₂) (keeps : s.Keeps own t)
    (sub : ∀ id, own id → E.own id) (outside : ∀ id, E.Feeds id → ¬ own id) :
    E.Parallel l r t s₁ s₂ := by
  have left := h.left.beside keeps (Store.Keeps.refl (fun _ => False) s₁) sub (fun _ h => h.elim)
    (fun id hid => outside id (feeds_under hid).1) fun _ _ h => h
  have right := h.right.beside keeps (Store.Keeps.refl (fun _ => False) s₂) sub (fun _ h => h.elim)
    (fun id hid => outside id (feeds_under hid).1) fun _ _ h => h
  exact ⟨left, right⟩

/-- New parts of the store change neither. -/
theorem Parallel.grow (h : E.Parallel l r s s₁ s₂) (grown : s.Grows t) : E.Parallel l r t s₁ s₂ :=
  h.beside grown (fun _ h => h.elim) fun _ _ h => h

end Parallel

end Setting

end Abacus
