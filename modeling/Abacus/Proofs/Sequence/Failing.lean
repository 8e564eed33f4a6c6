import Abacus.Proofs.Sequence.Truthful

/-!
# Reads that fail

A read that ends in an interruption has looked at most: it consumes no element, except that raw
elements which a filter rejects are taken on the way. So what it is about stands where a second look
finds the same, and what is asked later is answered as if the read had not been made. A generator of
pairs is different when it is asked for good: it takes the element of its left side before it knows
whether the right side has one.

**The law** (`Setting.Forest.failing_harmless`): in every state that quiet requests reach, a read that
fails does no harm, unless it takes from the left side of a pair whose right side fails.
-/

namespace Abacus

section Past

variable {own : SourceId → Prop} {D : Type} (R : Reading own D)

mutual

/-- Nothing is consumed from one supply to the other but raw elements that filters reject. -/
inductive Past : Supply D → Supply D → Prop
  | refl {u : Supply D} : Past u u
  | take {P : Pipe} {u w : Supply D} {n : Nat} : PastThrough P u w → Past (.take P u n) (.take P w n)
  | zip {P Q : Pipe} {u w v z : Supply D} : PastThrough P u w → PastThrough Q v z →
    Past (.zip P u Q v) (.zip P w Q z)

/-- The same for a sequence over the supplies, of which its own filters may reject elements. -/
inductive PastThrough : Pipe → Supply D → Supply D → Prop
  | done {P : Pipe} {u w : Supply D} : Past u w → PastThrough P u w
  | reject {P : Pipe} {u w z : Supply D} {x : D} : Past u w → Looks R w (.ok (some x)) w →
    R.through P x = .ok none → PastThrough P w.drop z → PastThrough P u z

end

variable {R}

mutual

/-- A look consumes nothing but raw elements that filters reject. -/
theorem Looks.past {u w : Supply D} {a : Except Interruption (Option D)} :
    Looks R u a w → Past R u w
  | .raw _ | .taken => .refl
  | .take h => .take h.past
  | .left h _ => .zip h.past (.done .refl)
  | .right h g _ => .zip h.past g.past
  | .both h g => .zip h.past g.past

/-- A search has gone past what it rejected. -/
theorem Seeks.past {P : Pipe} {u w : Supply D} {a : Except Interruption (Option D)} :
    Seeks R P u a w → PastThrough R P u w
  | .stop h _ => .done h.past
  | .found h _ _ => .done h.past
  | .reject h e g => .reject h.past h.again e g.past

end

/-- After a look, every look finds what it would have found before. -/
theorem Looks.iff {u w : Supply D} {a : Except Interruption (Option D)} (h : Looks R u a w)
    (b : Except Interruption (Option D)) (z : Supply D) : Looks R u b z ↔ Looks R w b z := by
  constructor
  · intro h'
    obtain ⟨rfl, rfl⟩ := h.unique h'
    exact h.again
  · intro h'
    obtain ⟨rfl, rfl⟩ := h.again.unique h'
    exact h

/-- Where a search stands, it comes to the answers it would have come to before. -/
theorem Seeks.iff {P : Pipe} {u w : Supply D} {a : Except Interruption (Option D)}
    (h : Seeks R P u a w) (b : Except Interruption (Option D)) (z : Supply D) :
    Seeks R P u b z ↔ Seeks R P w b z := by
  constructor
  · intro h'
    obtain ⟨rfl, rfl⟩ := h.unique h'
    exact h.again
  · intro h'
    obtain ⟨rfl, rfl⟩ := h.again.unique h'
    exact h

end Past

/-- A request for the next element of a sequence; not one that skips raw elements. -/
def Request.Asks (q : SequenceId) : Request → Prop
  | .next q' _ | .peek q' _ | .atEnd q' => q' = q
  | .skip _ _ => False

/-- What a sequence answers to who asks for its next element. -/
def AnswersNext {own : SourceId → Prop} {D : Type} (R : Reading own D) (q : SequenceId) (P : Pipe)
    (u : Supply D) (call : Request × Except Interruption (Reply D)) (w : Supply D) : Prop :=
  call.1.Asks q ∧ Answers R P call.1 u call.2 w

/-- Supplies in which a sequence finds the same answer the same. -/
theorem AnswersNext.of_seeks {own : SourceId → Prop} {D : Type} {R : Reading own D} {q : SequenceId}
    {P : Pipe} {u w z : Supply D} {call : Request × Except Interruption (Reply D)}
    (same : ∀ b z, Seeks R P u b z → Seeks R P w b z) (h : AnswersNext R q P u call z) :
    AnswersNext R q P w call z := by
  obtain ⟨request, reply⟩ := call
  obtain ⟨asks, answers⟩ := h
  refine ⟨asks, ?_⟩
  cases answers with
  | next h => exact .next (same _ _ h)
  | next_exhausted h => exact .next_exhausted (same _ _ h)
  | next_error h => exact .next_error (same _ _ h)
  | peek h => exact .peek (same _ _ h)
  | peek_exhausted h => exact .peek_exhausted (same _ _ h)
  | peek_error h => exact .peek_error (same _ _ h)
  | atEnd h => exact .atEnd (same _ _ h)
  | atEnd_error h => exact .atEnd_error (same _ _ h)
  | skip _ | skip_error _ => exact asks.elim

namespace Reader

variable {call : Call} {depth : Nat} {peek : Bool} {q : SequenceId} {s s' : Store}

/-- A reader at one depth more has nothing to give where looking ahead finds nothing. -/
theorem next_none
    (h : Sequence.lookahead call (ofDepth call depth) depth q s = .ok none s') :
    (ofDepth call (depth + 1)).next q peek s =
      .error (.fault ⟨.exhausted, (s.sequence q).position⟩) s' := by
  cases peek with
  | true => exact Sequence.peek_none h
  | false => exact Sequence.next_none h

/-- And fails if that does. -/
theorem next_error {e : Interruption}
    (h : Sequence.lookahead call (ofDepth call depth) depth q s = .error e s') :
    (ofDepth call (depth + 1)).next q peek s = .error e s' := by
  cases peek with
  | true => exact Sequence.peek_error h
  | false => exact Sequence.next_error h

end Reader

namespace Setting

variable {D : Type} {E : Setting D} {s s' : Store} {q l r : SequenceId} {u v : Supply D}
  {W V : List SourceId} {n k : Nat} {peek : Bool} {e : Interruption} {g : Generator}

/-! ## How a read fails -/

/-- A sequence that fails has looked for its next element and found none. -/
theorem Stands.next_failed (h : E.Stands s (s.sequence q).source u W) (kept : E.start.Keeps E.own s)
    (hq : E.watched q) (hrun : (Reader.ofDepth E.call n).next q peek s = .error e s')
    (hne : e ≠ .outOfFuel) :
    ∃ a w, IsStop a ∧ Seeks E.reading (s.sequence q).pipe u a w ∧
      E.Left s (s.sequence q).source w W s' := by
  cases n with
  | zero =>
    cases hrun
    exact absurd rfl hne
  | succ n =>
    have hout := lookahead_outcome (E.reads n u.height) hq kept h (Nat.le_refl _)
    generalize hres : Sequence.lookahead _ _ _ q s = res at hout
    cases hout with
    | ended hseek left =>
      cases hrun.symm.trans (Reader.next_none hres)
      exact ⟨_, _, isStop_none, hseek, left⟩
    | failed hseek left =>
      cases hrun.symm.trans (Reader.next_error hres)
      exact ⟨_, _, isStop_error _, hseek, left⟩
    | short =>
      cases hrun.symm.trans (Reader.next_error hres)
      exact absurd rfl hne
    | @found x w a s₁ hseek hfound =>
      obtain ⟨-, left, holds⟩ := hfound
      cases peek with
      | true => cases hrun.symm.trans (Sequence.peek_some hres)
      | false =>
        -- what has been found is held, and can be consumed
        obtain ⟨s₂, hnext, -⟩ | ⟨s₂, hnext, -⟩ := next_of_found (E.reads n w.height) hq kept hres left
          holds (Nat.le_refl _) (s.sequence q).position
        · cases hrun.symm.trans hnext
        · cases hrun.symm.trans hnext
          exact absurd rfl hne

/-- A sequence that is read for good consumes the element that it finds. -/
theorem Stands.next_given (h : E.Stands s (s.sequence q).source u W) (kept : E.start.Keeps E.own s)
    (hq : E.watched q) {a : Value} (hrun : (Reader.ofDepth E.call n).next q false s = .ok a s') :
    ∃ x w, Seeks E.reading (s.sequence q).pipe u (.ok (some x)) w ∧
      E.Left s (s.sequence q).source w.drop W s' := by
  cases n with
  | zero => cases hrun
  | succ n =>
    have hout := lookahead_outcome (E.reads n u.height) hq kept h (Nat.le_refl _)
    generalize hres : Sequence.lookahead _ _ _ q s = res at hout
    cases hout with
    | ended => cases hrun.symm.trans (Sequence.next_none hres)
    | failed | short => cases hrun.symm.trans (Sequence.next_error hres)
    | @found x w b s₁ hseek hfound =>
      obtain ⟨-, left, holds⟩ := hfound
      obtain ⟨s₂, hnext, left₂⟩ | ⟨s₂, hnext, -⟩ := next_of_found (E.reads n w.height) hq kept hres left
        holds (Nat.le_refl _) (s.sequence q).position
      · cases hrun.symm.trans hnext
        exact ⟨x, w, hseek, left.trans left₂⟩
      · cases hrun.symm.trans hnext

/-- Where an effect-free function is called and nothing else can fail, the function has failed. -/
theorem call_failed {f w : Value} {d : D} {p : Position} {α : Type} {next : Value → α}
    (free : E.reading.EffectFree E.call E.start f) (kept : E.start.Keeps E.own s)
    (hw : E.reading.means s w d)
    (hrun : (do let y ← E.call f [w] p; return next y : Action α) s = .error e s') :
    (∃ e', E.reading.apply f d p = .error e') ∧ s.Grows s' := by
  have ended := free p kept hw
  cases hcall : E.call f [w] p s with
  | ok y s₁ =>
    rw [Action.bind_ok hcall] at hrun
    cases hrun
  | error e₁ s₁ =>
    rw [Action.bind_error hcall] at hrun
    cases hrun
    rw [hcall] at ended
    generalize E.reading.apply f d p = told at ended
    cases ended with
    | interruption grown => exact ⟨⟨_, rfl⟩, grown⟩

/-- A generator over a stream fails where the stream has no element, and is where it was. -/
theorem At.next_failed {r : Nat → Except Interruption (Option D)} {reader : Reader}
    (h : E.At s r k g) (kept : E.start.Keeps E.own s)
    (hrun : g.next E.call reader peek s = .error e s') :
    ∃ a, IsStop a ∧ r k = a ∧ s.Grows s' := by
  cases h with
  | @index f _ limit cached p free hr hcached =>
    have hrk := hr k
    rw [Reading.indexElement] at hrk
    rw [Generator.next, Generator.atEnd_index] at hrun
    cases hat : limit.any (· ≤ (k : Int)) with
    | true =>
      rw [hat] at hrk hrun
      cases hrun
      exact ⟨_, isStop_none, hrk, .refl _ _⟩
    | false =>
      rw [hat] at hrk hrun
      cases cached with
      | some v => cases hrun
      | none =>
        have hindex := E.reading.means_number s (.integer (Int64.ofNat k))
        obtain ⟨⟨e', he⟩, grown⟩ := call_failed free kept hindex hrun
        rw [he] at hrk
        exact ⟨_, isStop_error e', hrk, grown⟩
  | upcoming => cases hrun
  | @previous f v k d p free hr hd hm =>
    obtain ⟨⟨e', he⟩, grown⟩ := call_failed free kept hm hrun
    have hrk := hr k d hd
    rw [he] at hrk
    exact ⟨_, isStop_error e', hrk, grown⟩
  | @range start stop step _ p hr =>
    have hrk := hr k
    rw [Reading.rangeElement] at hrk
    rw [Generator.next, Generator.atEnd] at hrun
    cases hend : Generator.rangeAtEnd (start.afterSteps step k) stop step with
    | error failure =>
      rw [hend] at hrk hrun
      cases hrun
      exact ⟨_, isStop_error _, hrk, .refl _ _⟩
    | ok atEnd =>
      rw [hend] at hrk hrun
      cases atEnd with
      | true =>
        cases hrun
        exact ⟨_, isStop_none, hrk, .refl _ _⟩
      | false => cases hrun
  | @vector items _ p hv hsome hnone =>
    rw [Generator.next, Action.view_bind] at hrun
    cases hj : (s.vector items)[k]? with
    | some v =>
      rw [hj] at hrun
      cases hrun
    | none =>
      rw [hj] at hrun
      cases hrun
      exact ⟨_, isStop_none, hnone k hj, .refl _ _⟩

/-! ## Generators that take from sequences -/

/-- A generator of pairs that is asked for good fails before it takes from its left side. -/
def SafeSide (E : Setting D) (n : Nat) (peek : Bool) (g : Generator) (s : Store) : Prop :=
  ∀ l r, g = .zip l r → peek = false →
    ∃ e t, (Reader.ofDepth E.call n).next l false s = .error e t

/-- If taking fails, looking at the supply stops too, and what it leaves supplies the source from
then on. -/
theorem take_failed (h : E.Stands s (s.sequence q).source u W) (kept : E.start.Keeps E.own s)
    (hq : E.watched q) (hne : e ≠ .outOfFuel)
    (hrun : (Generator.take q k).next E.call (.ofDepth E.call n) peek s = .error e s') :
    ∃ a w, IsStop a ∧ Looks E.reading (.take (s.sequence q).pipe u k) a w ∧
      E.Supplies s' (.take q k) w W ∧ s.Keeps (· ∈ W) s' := by
  rw [Generator.next] at hrun
  cases k with
  | zero =>
    cases hrun
    exact ⟨_, _, isStop_none, .taken, .take hq h, .refl _ _⟩
  | succ k =>
    rw [if_neg (Nat.succ_ne_zero k)] at hrun
    cases hnext : (Reader.ofDepth E.call n).next q peek s with
    | ok v s₁ => cases (Action.bind_ok hnext _).symm.trans hrun
    | error e' s₁ =>
      cases (Action.bind_error hnext _).symm.trans hrun
      obtain ⟨a, w, stop, hseek, left⟩ := h.next_failed kept hq hnext hne
      exact ⟨a, _, stop, .take hseek,
        supplies_take left.keeps (exists_of_kept kept hq) hq left.stands, left.keeps⟩

/-- The same for a zip, if it fails before it has taken an element from its left side. -/
theorem zip_failed (hfirst : E.Stands s (s.sequence l).source u W)
    (hsecond : E.Stands s (s.sequence r).source v V) (kept : E.start.Keeps E.own s)
    (hl : E.watched l) (hr : E.watched r) (disjoint : ∀ id ∈ W, id ∉ V) (hne : e ≠ .outOfFuel)
    (safe : E.SafeSide n peek (.zip l r) s)
    (hrun : (Generator.zip l r).next E.call (.ofDepth E.call n) peek s = .error e s') :
    ∃ a w, IsStop a ∧ Looks E.reading (.zip (s.sequence l).pipe u (s.sequence r).pipe v) a w ∧
      E.Supplies s' (.zip l r) w (W ++ V) ∧ s.Keeps (· ∈ W ++ V) s' := by
  have h : E.Sides s (s.sequence l).source (s.sequence r).source u v W V s :=
    ⟨hfirst, hsecond, .refl _ _⟩
  cases hnext : (Reader.ofDepth E.call n).next l peek s with
  | error e' s₁ =>
    cases (Action.bind_error hnext _).symm.trans hrun
    obtain ⟨a, w, stop, hseek, left⟩ := hfirst.next_failed kept hl hnext hne
    have h₁ := h.read_first kept disjoint left
    exact ⟨a, _, stop, .left hseek stop, supplies_zip kept hl hr disjoint h₁, h₁.keeps⟩
  | ok a s₁ =>
    cases peek with
    | false =>
      obtain ⟨e', t, hfails⟩ := safe l r rfl rfl
      cases hnext.symm.trans hfails
    | true =>
      obtain ⟨x, w, hseek, -, left, -⟩ := hfirst.shown kept hl hnext
      have h₁ := h.read_first kept disjoint left
      have hrsource := h₁.keeps.source_eq (exists_of_kept kept hr)
      have hrun := (Action.bind_ok hnext _).symm.trans hrun
      cases hnext₁ : (Reader.ofDepth E.call n).next r true s₁ with
      | ok b s₂ => cases (Action.bind_ok hnext₁ _).symm.trans hrun
      | error e' s₂ =>
        cases (Action.bind_error hnext₁ _).symm.trans hrun
        obtain ⟨b, z, stop, hseek₁, right⟩ :=
          Stands.next_failed (u := v) (by rw [hrsource]; exact h₁.second) (h₁.kept kept) hr hnext₁ hne
        rw [pipe_eq h₁.keeps (exists_of_kept kept hr)] at hseek₁
        rw [hrsource] at right
        have h₂ := h₁.read_second kept disjoint right
        exact ⟨b, _, stop, .right hseek hseek₁ stop, supplies_zip kept hl hr disjoint h₂, h₂.keeps⟩

/-- A generator that fails has looked at what it has to give and found nothing. -/
theorem Supplies.next_failed (h : E.Supplies s g u W) (kept : E.start.Keeps E.own s)
    (hne : e ≠ .outOfFuel) (safe : E.SafeSide n peek g s)
    (hrun : g.next E.call (.ofDepth E.call n) peek s = .error e s') :
    ∃ a w, IsStop a ∧ Looks E.reading u a w ∧ E.Supplies s' g w W ∧ s.Keeps (· ∈ W) s' := by
  cases h with
  | raw hat =>
    obtain ⟨a, stop, hr, grown⟩ := hat.next_failed kept hrun
    exact ⟨a, _, stop, .raw hr, .raw (hat.keeps (grown.keeps _)), grown.keeps _⟩
  | take hq h => exact take_failed h kept hq hne hrun
  | zip hl hr hfirst hsecond disjoint =>
    exact zip_failed hfirst hsecond kept hl hr disjoint hne safe hrun

/-- A source whose generator fails stands where the look leaves it. -/
theorem Stands.generator_failed {id : SourceId} (h : E.Stands s id u W)
    (kept : E.start.Keeps E.own s) (hne : e ≠ .outOfFuel)
    (safe : E.SafeSide n peek (s.source id).generator s)
    (hrun : (s.source id).generator.next E.call (.ofDepth E.call n) peek s = .error e s') :
    ∃ a w, IsStop a ∧ Looks E.reading u a w ∧ E.Left s id w W s' ∧ s'.source id = s.source id := by
  cases h with
  | @mk _ _ U hid hown idle counted hg hnot coherent =>
    obtain ⟨a, w, stop, hlook, supplies, keeps⟩ := hg.next_failed kept hne safe hrun
    have hsource := keeps.source hid hnot
    have keeps' := keeps.mono fun _ h => List.mem_cons_of_mem id h
    have hsub : ∀ id' ∈ U, E.own id' := hg.own_of_mem
    refine ⟨a, w, stop, hlook, ⟨.mk (Nat.lt_of_lt_of_le hid keeps.size_sources) hown ?_ ?_ ?_ hnot
      fun q hq hqid => ?_, keeps'⟩, hsource⟩
    · rw [hsource, idle]
    · rw [hsource]
      exact hlook.counted counted
    · rw [hsource]
      exact supplies
    · have hlt := exists_of_kept kept hq
      rw [keeps.source_eq hlt] at hqid
      subst hqid
      refine (coherent q hq rfl).read (keeps.mono hsub) hlt (keeps.pending hlt hnot) ?_ ?_
      · exact Nat.le_of_eq (congrArg Source.advanced hsource.symm)
      · rintro - ⟨x, hx⟩
        exact (hlook.unique hx).2

/-- A generator of pairs that fails for good after its left side gave an element has consumed it. -/
theorem zip_takes_left {a : Value} {t : Store} (hfirst : E.Stands s (s.sequence l).source u W)
    (hsecond : E.Stands s (s.sequence r).source v V) (kept : E.start.Keeps E.own s)
    (hl : E.watched l) (hr : E.watched r) (disjoint : ∀ id ∈ W, id ∉ V) (hne : e ≠ .outOfFuel)
    (hgives : (Reader.ofDepth E.call n).next l false s = .ok a t)
    (hrun : (Generator.zip l r).next E.call (.ofDepth E.call n) false s = .error e s') :
    ∃ x w, Seeks E.reading (s.sequence l).pipe u (.ok (some x)) w ∧
      E.Stands s' (s.sequence l).source w.drop W := by
  have h : E.Sides s (s.sequence l).source (s.sequence r).source u v W V s :=
    ⟨hfirst, hsecond, .refl _ _⟩
  obtain ⟨x, w, hseek, left⟩ := hfirst.next_given kept hl hgives
  have h₁ := h.read_first kept disjoint left
  have hrsource := h₁.keeps.source_eq (exists_of_kept kept hr)
  have hrun := (Action.bind_ok hgives _).symm.trans hrun
  cases hnext : (Reader.ofDepth E.call n).next r false t with
  | ok b s₂ => cases (Action.bind_ok hnext _).symm.trans hrun
  | error e' s₂ =>
    cases (Action.bind_error hnext _).symm.trans hrun
    obtain ⟨b, z, -, -, right⟩ :=
      Stands.next_failed (u := v) (by rw [hrsource]; exact h₁.second) (h₁.kept kept) hr hnext hne
    rw [hrsource] at right
    exact ⟨x, w, hseek, (h₁.read_second kept disjoint right).first⟩

/-! ## Doing no harm -/

/-- From one store to the other, a read of the source of a sequence has done no harm. The source stands
in both; nothing was consumed but raw elements that filters reject, and what is asked there later is
answered the same. Nothing changed outside of what the source draws on. If no element that is held was
left behind, then all sequences stand, and those for which nothing was consumed stand as before. -/
structure Harmless {α : Type} (E : Setting D) (q : SequenceId) (past : Supply D → Supply D → Prop)
    (answers : Supply D → α → Supply D → Prop) (s s' : Store) : Prop where
  stands : ∃ u w W, E.Stands s (s.sequence q).source u W ∧ E.Stands s' (s.sequence q).source w W ∧
    past u w ∧ ∀ a z, answers u a z ↔ answers w a z
  keeps : s.Keeps (s.Draws (s.sequence q).source ·) s'
  others : E.Quiet q s s' → E.Forest s' ∧ ∀ {q' v V}, E.watched q' →
    E.Stands s (s.sequence q').source v V →
    (∀ id ∈ V, (s'.source id).advanced = (s.source id).advanced) →
    E.Stands s' (s.sequence q').source v V

/-- A read that leaves a source where a look does has done no harm. -/
theorem Harmless.of_left {α : Type} {past : Supply D → Supply D → Prop}
    {answers : Supply D → α → Supply D → Prop} {w : Supply D} (forest : E.Forest s)
    (h : E.Stands s (s.sequence q).source u W) (left : E.Left s (s.sequence q).source w W s')
    (hpast : past u w) (same : ∀ a z, answers u a z ↔ answers w a z) :
    E.Harmless q past answers s s' where
  stands := ⟨u, w, W, h, left.stands, hpast, same⟩
  keeps := left.keeps.mono fun _ => h.mem_iff.mp
  others quiet := by
    have forest' := forest.step h left quiet
    refine ⟨forest', fun {q' v V} hq' h' still => ?_⟩
    obtain ⟨v', V', h''⟩ := forest'.stands hq'
    rw [left.keeps.source_eq (exists_of_kept forest.kept hq')] at h''
    obtain rfl := h''.list_eq forest.kept left.keeps h'
    obtain rfl := h''.eq_of_still forest.kept left.keeps h' still
    exact h''

/-- **A read that fails does no harm**, in every state that quiet requests reach from a forest.

This holds of every sequence that is watched, and of the generator of its source, whether the element
is to be looked at or to be consumed: the generator is what it was, with all that it counts. The one
exception is a generator of pairs that is asked for good: it must fail on its left side. If the left
side gives an element, and the right side fails, then the element is consumed. -/
theorem Forest.failing_harmless {budget : Nat}
    {replies : List (Request × Except Interruption (Reply Value))} (forest : E.Forest E.start)
    (run : E.QuietRun budget E.start replies s) (hq : E.watched q) (hne : e ≠ .outOfFuel) :
    (∀ {n peek s'}, (Reader.ofDepth E.call n).next q peek s = .error e s' →
      E.Harmless q (PastThrough E.reading (s.sequence q).pipe)
        (AnswersNext E.reading q (s.sequence q).pipe) s s') ∧
    (∀ {n peek s'}, (s.source (s.sequence q).source).generator.next E.call (.ofDepth E.call n) peek s =
        .error e s' →
      E.SafeSide n peek (s.source (s.sequence q).source).generator s →
      E.Harmless q (Past E.reading) (Looks E.reading) s s' ∧
        s'.source (s.sequence q).source = s.source (s.sequence q).source) ∧
    ∀ {n l r a t s'}, (s.source (s.sequence q).source).generator = .zip l r →
      (Reader.ofDepth E.call n).next l false s = .ok a t →
      (s.source (s.sequence q).source).generator.next E.call (.ofDepth E.call n) false s =
        .error e s' →
      ∃ u w W x, E.Stands s (s.sequence l).source u W ∧
        Seeks E.reading (s.sequence l).pipe u (.ok (some x)) w ∧
        E.Stands s' (s.sequence l).source w.drop W := by
  have reached := forest.run run
  obtain ⟨u, W, h⟩ := reached.stands hq
  refine ⟨fun hrun => ?_, fun hrun safe => ?_, fun hg hnext hrun => ?_⟩
  · obtain ⟨a, w, -, hseek, left⟩ := h.next_failed reached.kept hq hrun hne
    refine .of_left reached h left hseek.past fun call z => ?_
    exact ⟨.of_seeks fun b z => (hseek.iff b z).mp, .of_seeks fun b z => (hseek.iff b z).mpr⟩
  · obtain ⟨a, w, -, hlook, left, hsource⟩ := h.generator_failed reached.kept hne safe hrun
    exact ⟨.of_left reached h left hlook.past hlook.iff, hsource⟩
  · cases h with
    | mk _ _ _ _ hsupplies _ _ =>
      rw [hg] at hsupplies hrun
      cases hsupplies with
      | raw hat => cases hat
      | zip hl hr hfirst hsecond disjoint =>
        obtain ⟨x, w, hseek, hstands⟩ :=
          zip_takes_left hfirst hsecond reached.kept hl hr disjoint hne hnext hrun
        exact ⟨_, w, _, x, hfirst, hseek, hstands⟩

end Setting

/-- The pairs of `range(0, 1)` with `range(0, 0)`, which has no element. -/
def pairsWithNone : Setting Datum where
  own id := id.index < 3
  reading := Datum.reading _
  stream id j := (Datum.reading (·.index < 3)).rangeElement
    ((Number.integer 0).afterSteps (.integer 1) j) (.integer (if id = ⟨0⟩ then 1 else 0)) (.integer 1)
    .start
  limit _ := 0
  call := Action.apply 1
  start := .withSources
    #[⟨.range (.integer 0) (.integer 1) (.integer 1) .start, 0, false⟩,
      ⟨.range (.integer 0) (.integer 0) (.integer 1) .start, 0, false⟩, ⟨.zip ⟨0⟩ ⟨1⟩, 0, false⟩]
    #[⟨⟨0⟩, [], none, .start⟩, ⟨⟨1⟩, [], none, .start⟩, ⟨⟨2⟩, [], none, .start⟩]
  watched q := q = ⟨0⟩ ∨ q = ⟨1⟩ ∨ q = ⟨2⟩
  exists_of_watched := by
    rintro q (rfl | rfl | rfl) <;> decide
  free_of_watched := by
    rintro q (rfl | rfl | rfl) t ht <;> cases ht

/-- There is no pair: to ask for one does no harm, nor does a look into the generator. To take a pair
from the generator costs its left side an element. -/
theorem pairsWithNone_failing :
    ∃ e s₁ s₂ s₃ a t,
      ((Reader.ofDepth pairsWithNone.call 4).next ⟨2⟩ false pairsWithNone.start = .error e s₁ ∧
        pairsWithNone.Harmless ⟨2⟩
          (PastThrough pairsWithNone.reading (pairsWithNone.start.sequence ⟨2⟩).pipe)
          (AnswersNext pairsWithNone.reading ⟨2⟩ (pairsWithNone.start.sequence ⟨2⟩).pipe)
          pairsWithNone.start s₁) ∧
      ((Generator.zip ⟨0⟩ ⟨1⟩).next pairsWithNone.call (.ofDepth pairsWithNone.call 4) true
          pairsWithNone.start = .error e s₂ ∧
        pairsWithNone.Harmless ⟨2⟩ (Past pairsWithNone.reading) (Looks pairsWithNone.reading)
          pairsWithNone.start s₂) ∧
      ((Generator.zip ⟨0⟩ ⟨1⟩).next pairsWithNone.call (.ofDepth pairsWithNone.call 4) false
          pairsWithNone.start = .error e s₃ ∧
        (Reader.ofDepth pairsWithNone.call 4).next ⟨0⟩ false pairsWithNone.start = .ok a t ∧
        ∃ u w W x, pairsWithNone.Stands pairsWithNone.start ⟨0⟩ u W ∧
          Seeks pairsWithNone.reading (pairsWithNone.start.sequence ⟨0⟩).pipe u (.ok (some x)) w ∧
          pairsWithNone.Stands s₃ ⟨0⟩ w.drop W) := by
  have unread : ∀ {id g}, id.index < 3 → pairsWithNone.start.source id = ⟨g, 0, false⟩ →
      pairsWithNone.Unread id g := by
    refine fun hlt h => ⟨hlt, hlt, h, ?_⟩
    rintro q (rfl | rfl | rfl) - <;> rfl
  have at₀ : pairsWithNone.At pairsWithNone.start (pairsWithNone.stream ⟨0⟩) 0
      (.range (.integer 0) (.integer 1) (.integer 1) .start) := .range fun _ => rfl
  have at₁ : pairsWithNone.At pairsWithNone.start (pairsWithNone.stream ⟨1⟩) 0
      (.range (.integer 0) (.integer 0) (.integer 1) .start) := .range fun _ => rfl
  have h₀ : pairsWithNone.Stands pairsWithNone.start ⟨0⟩ _ [⟨0⟩] :=
    (unread (by decide) rfl).stands (.raw at₀) ⟨rfl, rfl⟩ List.not_mem_nil
  have h₁ : pairsWithNone.Stands pairsWithNone.start ⟨1⟩ _ [⟨1⟩] :=
    (unread (by decide) rfl).stands (.raw at₁) ⟨rfl, rfl⟩ List.not_mem_nil
  have pairs : pairsWithNone.Supplies pairsWithNone.start (.zip ⟨0⟩ ⟨1⟩) _ ([⟨0⟩] ++ [⟨1⟩]) :=
    .zip (.inl rfl) (.inr (.inl rfl)) h₀ h₁ (by decide)
  have h₂ : pairsWithNone.Stands pairsWithNone.start ⟨2⟩ _ [⟨2⟩, ⟨0⟩, ⟨1⟩] :=
    (unread (by decide) rfl).stands pairs trivial (by decide)
  have forest : pairsWithNone.Forest pairsWithNone.start := by
    refine ⟨.refl _ _, ?_⟩
    rintro q (rfl | rfl | rfl)
    · exact ⟨_, _, h₀⟩
    · exact ⟨_, _, h₁⟩
    · exact ⟨_, _, h₂⟩
  have run : pairsWithNone.QuietRun 4 pairsWithNone.start [] pairsWithNone.start := .nil
  obtain ⟨next, look, taken⟩ := Setting.Forest.failing_harmless forest run (q := ⟨2⟩)
    (e := .fault ⟨.exhausted, .start⟩) (.inr (.inr rfl)) nofun
  obtain ⟨harmless, -⟩ := @look 4 true _ rfl nofun
  exact ⟨_, _, _, _, _, _, ⟨rfl, @next 4 false _ rfl⟩, ⟨rfl, harmless⟩, rfl, rfl, @taken 4 _ _ _ _ _ rfl rfl rfl⟩

/-- **A read that fails consumes an element** of a sequence that is paired with itself: the last one is
there before, and gone after. -/
theorem failed_pair_takes_last :
    ∃ s, Sequence.next (Action.apply 1) (.ofDepth (Action.apply 1) 4) 4 ⟨1⟩ .start sharedSides =
        .error (.fault ⟨.exhausted, .start⟩) s ∧
      (∃ t, Sequence.atEnd (Action.apply 1) (.ofDepth (Action.apply 1) 4) 4 ⟨0⟩ sharedSides =
        .ok false t) ∧
      ∃ t, Sequence.atEnd (Action.apply 1) (.ofDepth (Action.apply 1) 4) 4 ⟨0⟩ s = .ok true t :=
  ⟨_, rfl, ⟨_, rfl⟩, _, rfl⟩

end Abacus
