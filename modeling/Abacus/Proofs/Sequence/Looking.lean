import Abacus.Proofs.Sequence.Raw

/-!
# Sequences over a source

How a sequence looks ahead and consumes over a source whose raw elements are had as
`Setting.Reads` says. A sequence that holds an element gives that element, and its source then has an
element to consume.

**The laws.** A look ahead ends as `Seeks` answers (`Setting.lookahead_rounds`); an element that is
held is what `next` delivers, and the source is left after it (`Setting.next_of_holds`).
-/

namespace Abacus

/-- The sequence holds this value, and nothing has been consumed from its source since. -/
def Store.Holds (s : Store) (q : SequenceId) (v : Value) : Prop :=
  (s.sequence q).pending = some ((s.source (s.sequence q).source).advanced, v)

/-- What a sequence holds is held as long as its source is not read. -/
theorem Store.Holds.keeps {own : SourceId → Prop} {s s' : Store} {q : SequenceId} {v : Value}
    (h : s.Holds q v)
    (kept : s.Keeps own s') (hq : q.index < s.sequences.size)
    (hid : (s.sequence q).source.index < s.sources.size) (hother : ¬ own (s.sequence q).source) :
    s'.Holds q v := by
  rw [Store.Holds, kept.pending hq hother, kept.source_eq hq, kept.source hid hother]
  exact h

namespace Sequence

/-! ## What follows a look ahead -/

section Ahead

variable {call : Call} {reader : Reader} {fuel : Nat} {q : SequenceId} {p : Position} {v : Value}
  {o : Option Value} {e : Interruption} {s s' : Store}

/-- A sequence that holds an element looks no further. -/
theorem lookahead_of_holds (h : s.Holds q v) : lookahead call reader fuel q s = .ok (some v) s := by
  rw [lookahead, Action.view_bind, Action.view_bind, h]
  simp only [if_true]
  rfl

/-- A sequence is at its end when looking ahead finds nothing. -/
theorem atEnd_ok (h : lookahead call reader fuel q s = .ok o s') :
    atEnd call reader fuel q s = .ok o.isNone s' := by
  rw [atEnd, Action.bind_ok h]
  rfl

/-- Asking for the end fails when looking ahead does. -/
theorem atEnd_error (h : lookahead call reader fuel q s = .error e s') :
    atEnd call reader fuel q s = .error e s' := by
  rw [atEnd, Action.bind_error h]

/-- What looking ahead finds is what is looked at. -/
theorem peek_some (h : lookahead call reader fuel q s = .ok (some v) s') :
    peek call reader fuel q p s = .ok v s' := by
  rw [peek, Action.bind_ok h]
  rfl

/-- When it finds nothing there is nothing to look at. -/
theorem peek_none (h : lookahead call reader fuel q s = .ok none s') :
    peek call reader fuel q p s = .error (.fault ⟨.exhausted, p⟩) s' := by
  rw [peek, Action.bind_ok h]
  rfl

/-- When it fails, so does looking. -/
theorem peek_error (h : lookahead call reader fuel q s = .error e s') :
    peek call reader fuel q p s = .error e s' := by
  rw [peek, Action.bind_error h]

/-- What has been found is consumed. -/
theorem next_some (h : lookahead call reader fuel q s = .ok (some v) s') :
    next call reader fuel q p s =
      (do
        let _ ← raw call reader false (s'.sequence q).source (s'.sequence q).position
        modify (·.setPending q none)
        return v : Action Value) s' := by
  rw [next, Action.bind_ok (peek_some h), Action.view_bind]

/-- Delivery goes on as in the store in which what has been found is held. -/
theorem next_eq_of_found (h : lookahead call reader fuel q s = .ok (some v) s')
    (holds : s'.Holds q v) : next call reader fuel q p s = next call reader fuel q p s' :=
  (next_some h).trans (next_some (lookahead_of_holds holds)).symm

/-- Nor is there anything to take. -/
theorem next_none (h : lookahead call reader fuel q s = .ok none s') :
    next call reader fuel q p s = .error (.fault ⟨.exhausted, p⟩) s' := by
  rw [next, Action.bind_error (peek_none h)]

/-- A failure to look ahead is one to take. -/
theorem next_error (h : lookahead call reader fuel q s = .error e s') :
    next call reader fuel q p s = .error e s' := by
  rw [next, Action.bind_error (peek_error h)]

/-- No other element than the one that is held is delivered. -/
theorem next_of_holds_eq (h : s.Holds q v) {w : Value}
    (hnext : next call reader fuel q p s = .ok w s') : w = v := by
  rw [next_some (lookahead_of_holds h)] at hnext
  obtain ⟨o, s₁, -, hnext⟩ := Action.of_bind_ok hnext
  cases hnext
  rfl

/-- The element that is held is delivered exactly if the source can be read for good. -/
theorem next_of_holds_iff (h : s.Holds q v) :
    (∃ s', next call reader fuel q p s = .ok v s') ↔
      ∃ o s', raw call reader false (s.sequence q).source (s.sequence q).position s = .ok o s' := by
  rw [next_some (lookahead_of_holds h)]
  constructor
  · rintro ⟨s', hnext⟩
    obtain ⟨o, s₁, hraw, -⟩ := Action.of_bind_ok hnext
    exact ⟨o, s₁, hraw⟩
  · rintro ⟨o, s₁, hraw⟩
    exact ⟨s₁.setPending q none, by rw [Action.bind_ok hraw]; rfl⟩

end Ahead

end Sequence

namespace Setting

variable {D : Type} {E : Setting D}

/-! ## Stores that stand -/

section Stores

variable {s s' : Store} {id : SourceId} {u w : Supply D} {W : List SourceId} {q : SequenceId}

/-- A source has been found where it is. -/
theorem Stands.left (h : E.Stands s id u W) : E.Left s id u W s := ⟨h, .refl _ _⟩

/-- What one reading leaves and another reads further. -/
theorem Left.trans {s'' : Store} (h : E.Left s id u W s') (h' : E.Left s' id w W s'') :
    E.Left s id w W s'' :=
  ⟨h'.stands, h.keeps.trans h'.keeps⟩

/-- A source stays where it was found while functions run. -/
theorem Left.grow {s'' : Store} (kept : E.start.Keeps E.own s) (h : E.Left s id u W s')
    (grown : s'.Grows s'') : E.Left s id u W s'' :=
  ⟨h.stands.keeps (h.kept kept) grown (fun _ h => h.elim) fun _ _ h => h,
    h.keeps.trans (grown.keeps _)⟩

/-- A source is among those that it stands on. -/
theorem Stands.mem (h : E.Stands s id u W) : id ∈ W := by
  cases h with
  | mk => exact List.mem_cons_self

/-- A source that stands is one that the store has. -/
theorem Stands.lt (h : E.Stands s id u W) : id.index < s.sources.size := by
  cases h with
  | mk hid => exact hid

/-- What a watched sequence has looked ahead to belongs to its supply. -/
theorem Stands.coherent (h : E.Stands s id u W) (hq : E.watched q)
    (hid : (s.sequence q).source = id) : E.Coherent s q u := by
  cases h with
  | mk _ _ _ _ _ _ coherent => exact coherent q hq hid

/-- A source has advanced as far as its supply has moved. -/
theorem Stands.counted (h : E.Stands s id u W) :
    Supply.Counted (E.stream id) (E.limit id) (s.source id).advanced u := by
  cases h with
  | mk _ _ _ counted => exact counted

/-- A reading leaves the sequence over a source of its own. -/
theorem Left.own {q : SequenceId} (h : E.Left s (s.sequence q).source u W s')
    (kept : E.start.Keeps E.own s) (hq : E.watched q) : E.own (s'.sequence q).source := by
  rw [h.keeps.source_eq (exists_of_kept kept hq)]
  exact h.stands.own_of_mem _ h.stands.mem

/-- A sequence may take hold of the element that lies in place, or of nothing. -/
theorem Stands.setPending (h : E.Stands s id u W) (kept : E.start.Keeps E.own s)
    (hq : E.watched q) (hid : (s.sequence q).source = id) {p : Option (Nat × Value)}
    (hp : ∀ n v, p = some (n, v) → n = (s.source id).advanced ∧
      ∃ d, Seeks E.reading (s.sequence q).pipe u (.ok (some d)) u ∧ E.reading.means s v d) :
    E.Left s id u W (s.setPending q p) := by
  have hmem := h.mem
  have hall : s.Keeps (· ∈ W) (s.setPending q p) := Store.keeps_setPending s (by rwa [hid]) p
  cases h with
  | mk hlt hown idle counted hg hnot coherent =>
    have hkeeps : s.Keeps (· = id) (s.setPending q p) := Store.keeps_setPending s (by exact hid) p
    have hsub : ∀ id', id' = id → E.own id' := by
      rintro _ rfl
      exact hown
    refine ⟨.mk hlt hown idle counted (hg.keeps kept hkeeps hsub ?_) hnot ?_, hall⟩
    · rintro id' hid' rfl
      exact hnot hid'
    · intro q' hq' hid'
      have hlt' := exists_of_kept kept hq'
      rw [hkeeps.source_eq hlt'] at hid'
      by_cases hqq : q' = q
      · subst hqq
        intro n v hpend
        rw [Store.sequence_setPending_self hlt'] at hpend ⊢
        obtain ⟨hn, d, hd, hm⟩ := hp n v hpend
        rw [Store.source_setPending, hid]
        exact ⟨Nat.le_of_eq hn, fun _ => ⟨d, hd, E.reading.means_keeps (hkeeps.mono hsub) hm⟩⟩
      · refine (coherent q' hq' hid').read (hkeeps.mono hsub) hlt' ?_ (Nat.le_refl _) fun _ _ => rfl
        rw [Store.sequence_setPending_of_ne hqq]

end Stores

/-! ## Looking ahead -/

/-- Sources whose supplies are at most so high are read as they stand, with readers that reach to a
depth. -/
def Reads (E : Setting D) (depth height : Nat) : Prop :=
  ∀ {s : Store} {id : SourceId} {u : Supply D} {W : List SourceId} (peek : Bool) (p : Position),
    E.start.Keeps E.own s → E.Stands s id u W → u.height ≤ height →
    E.Read s id u W depth peek (Sequence.raw E.call (.ofDepth E.call depth) peek id p s)

/-- How a look ahead of a sequence ends. -/
abbrev Looked (E : Setting D) (s : Store) (q : SequenceId) (u : Supply D) (W : List SourceId)
    (short : Prop) : EStateM.Result Interruption Store (Option Value) → Prop :=
  Outcome (Seeks E.reading (s.sequence q).pipe u)
    (fun x w v s' => E.reading.means s' v x ∧ E.Left s (s.sequence q).source w W s' ∧ s'.Holds q v)
    (fun w s' => E.Left s (s.sequence q).source w W s') short

section Looking

variable {s : Store} {u : Supply D} {W : List SourceId} {q : SequenceId} {depth height : Nat}

/-- A change that keeps a sequence keeps its functions. -/
theorem pipe_eq {own : SourceId → Prop} {s s' : Store} (kept : s.Keeps own s')
    (hq : q.index < s.sequences.size) : (s'.sequence q).pipe = (s.sequence q).pipe := by
  rw [Sequence.pipe, kept.transformers_eq hq, kept.position_eq hq]
  rfl

/-- The functions of a watched sequence have no effects. -/
theorem free_of_pipe (kept : E.start.Keeps E.own s) (hq : E.watched q) {base : Sequence}
    (hpipe : base.pipe = (s.sequence q).pipe) :
    ∀ t ∈ base.transformers, E.reading.EffectFree E.call E.start t.function := by
  rw [pipe_eq kept (E.exists_of_watched hq)] at hpipe
  have hsame : base.transformers = (E.start.sequence q).transformers :=
    congrArg Pipe.transformers hpipe
  rw [hsame]
  exact E.free_of_watched hq

/-- A sequence takes hold of what it has found. -/
theorem Left.hold {s' : Store} {w : Supply D} {v : Value} {y : D} (hq : E.watched q)
    (kept : E.start.Keeps E.own s) (left : E.Left s (s.sequence q).source w W s')
    (hseek : Seeks E.reading (s.sequence q).pipe w (.ok (some y)) w) (hm : E.reading.means s' v y)
    {n : Nat} (hn : n = (s'.source (s.sequence q).source).advanced) :
    E.Left s (s.sequence q).source w W (s'.setPending q (some (n, v))) ∧
      (s'.setPending q (some (n, v))).Holds q v := by
  have hlt := exists_of_kept kept hq
  have hlt' := exists_of_kept (left.kept kept) hq
  have hsource := left.keeps.source_eq hlt
  refine ⟨left.trans ?_, ?_⟩
  · refine left.stands.setPending (left.kept kept) hq hsource fun m z hz => ?_
    cases hz
    rw [pipe_eq left.keeps hlt]
    exact ⟨hn, y, hseek, hm⟩
  · rw [Store.Holds, Store.sequence_setPending_self hlt', Store.source_setPending, hsource, hn]

/-- **What lies in place at a source is consumed**, with as much budget as supplies are nested. -/
theorem Reads.consumed (reads : E.Reads depth height) {id : SourceId} (kept : E.start.Keeps E.own s)
    (h : E.Stands s id u W) (hheight : u.height ≤ height) {x : D}
    (hlook : Looks E.reading u (.ok (some x)) u) (p : Position) :
    (∃ o s', Sequence.raw E.call (.ofDepth E.call depth) false id p s = .ok o s' ∧
      E.Left s id u.drop W s' ∧ (s'.source id).advanced = (s.source id).advanced + 1) ∨
    (∃ s', Sequence.raw E.call (.ofDepth E.call depth) false id p s = .error .outOfFuel s' ∧
      depth < u.height) := by
  have hread := reads false p kept h hheight
  generalize Sequence.raw _ _ false _ _ s = res at hread ⊢
  cases hread with
  | ended hlook' _ => exact nomatch (hlook.unique hlook').1
  | failed hlook' _ => exact nomatch (hlook.unique hlook').1
  | short hshort =>
    refine .inr ⟨_, rfl, ?_⟩
    have := hshort _ _ hlook
    omega
  | found hlook' hfound =>
    obtain ⟨-, left, hadvanced⟩ := hfound
    obtain ⟨-, rfl⟩ := hlook.unique hlook'
    exact .inl ⟨_, _, rfl, left, hadvanced⟩

/-- A sequence over a source looks for its next element as `Seeks` says. -/
theorem seek_outcome (reads : E.Reads depth height) (hq : E.watched q) (fuel : Nat)
    (kept : E.start.Keeps E.own s) (h : E.Stands s (s.sequence q).source u W)
    (hheight : u.height ≤ height) {base : Sequence} (hpipe : base.pipe = (s.sequence q).pipe)
    (hsource : base.source = (s.sequence q).source) :
    E.Looked s q u W
      (∀ a w, Seeks E.reading (s.sequence q).pipe u a w →
        fuel ≤ w.moved - u.moved ∨ depth < u.height + (w.moved - u.moved))
      (Sequence.seek E.call (.ofDepth E.call depth) q base fuel s) := by
  induction fuel generalizing s u with
  | zero => exact .short fun _ _ _ => .inl (Nat.zero_le _)
  | succ fuel ih =>
    rw [Sequence.seek, Action.view_bind, hsource]
    have hread := reads true base.position kept h hheight
    generalize hres : Sequence.raw _ _ true _ _ s = res at hread
    cases hread with
    | ended hlook left =>
      rw [Action.bind_ok hres]
      exact .ended (.stop hlook isStop_none) left
    | failed hlook left =>
      rw [Action.bind_error hres]
      exact .failed (.stop hlook (isStop_error _)) left
    | short hshort =>
      rw [Action.bind_error hres]
      refine .short fun a w hseek => .inr ?_
      obtain ⟨a', w', hlook, hle⟩ := hseek.first
      have := hshort a' w' hlook
      omega
    | @found x w v s₁ hlook hfound =>
      obtain ⟨hm, left, hadvanced⟩ := hfound
      have left : E.Left s (s.sequence q).source w W s₁ := left
      have hlt := exists_of_kept kept hq
      have htransform := E.reading.transform_ends base.position (free_of_pipe kept hq hpipe)
        (left.kept kept) hm
      rw [Action.bind_ok hres]
      show E.Looked s q u W _ ((Sequence.transform _ _ _ v >>= _) s₁)
      generalize htold : E.reading.transform base.position base.transformers x = told at htransform
      have hthrough : E.reading.through (s.sequence q).pipe x = told := by rw [← hpipe]; exact htold
      generalize hres' : Sequence.transform _ _ _ v s₁ = res' at htransform
      cases htransform with
      | interruption grown =>
        rw [Action.bind_error hres']
        exact .failed (.found hlook hthrough fun h => nomatch h) (left.grow kept grown)
      | @value o b s₂ hrel grown =>
        rw [Action.bind_ok hres']
        have left₂ := left.grow kept grown
        cases hrel with
        | @some v' y hm' =>
          have hadvanced₂ := congrArg Source.advanced (grown.source left.stands.lt id)
          obtain ⟨left₃, holds⟩ := left₂.hold hq kept
            (.found hlook.again hthrough fun h => nomatch h) hm' (hadvanced₂.trans hadvanced).symm
          refine .found (.found hlook hthrough fun h => nomatch h) ⟨?_, left₃, holds⟩
          exact E.reading.means_keeps (Store.keeps_setPending s₂ (left₂.own kept hq) _) hm'
        | none =>
          -- the element is consumed, and the search goes on after it
          have kept₂ := left₂.kept kept
          have hheight₂ := hlook.height_eq
          show E.Looked s q u W _ ((Sequence.raw _ _ false _ _ >>= _) s₂)
          obtain ⟨o, s₃, hres₂, left₃, -⟩ | ⟨s₃, hres₂, hshort⟩ :=
            reads.consumed kept₂ left₂.stands (by omega) hlook.again base.position
          · rw [Action.bind_ok hres₂]
            have left₃ := left₂.trans left₃
            have hsource₃ := left₃.keeps.source_eq hlt
            have hpipe₃ := pipe_eq left₃.keeps hlt
            have hout := ih (left₃.kept kept) (u := w.drop) (by rw [hsource₃]; exact left₃.stands)
              (by rw [Supply.height_drop, hheight₂]; exact hheight) (hpipe.trans hpipe₃.symm)
              (hsource.trans hsource₃.symm)
            simp only [Looked, hpipe₃, hsource₃] at hout
            refine hout.imp (.reject hlook hthrough) ?_ ?_ ?_
            · rintro x' w' v' s' ⟨hm', left', holds⟩
              exact ⟨hm', left₃.trans left', holds⟩
            · intro w' s' left'
              exact left₃.trans left'
            · intro hshort a z hseek
              have hrest := hseek.rest hlook hthrough
              have hle := hrest.moved_le
              have hlt := w.moved_lt_drop
              have hle' := hlook.moved_le
              have hheight' := w.height_drop
              have := hshort a z hrest
              omega
          · rw [Action.bind_error hres₂]
            refine .short fun a z hseek => .inr ?_
            omega

/-- **A look ahead ends as the supply answers**, and what it finds is held; it takes a round for each
element that it passes, and a depth as for the search. -/
theorem lookahead_rounds (reads : E.Reads depth height) (hq : E.watched q) (fuel : Nat)
    (kept : E.start.Keeps E.own s) (h : E.Stands s (s.sequence q).source u W)
    (hheight : u.height ≤ height) :
    E.Looked s q u W
      (∀ a w, Seeks E.reading (s.sequence q).pipe u a w →
        fuel ≤ w.moved - u.moved ∨ depth < u.height + (w.moved - u.moved))
      (Sequence.lookahead E.call (.ofDepth E.call depth) fuel q s) := by
  cases hpending : (s.sequence q).pending with
  | none =>
    rw [Sequence.lookahead, Action.view_bind, Action.view_bind, hpending]
    exact seek_outcome reads hq fuel kept h hheight rfl rfl
  | some pending =>
    obtain ⟨stamp, v⟩ := pending
    obtain ⟨-, hlive⟩ := h.coherent hq rfl stamp v hpending
    by_cases hstamp : stamp = (s.source (s.sequence q).source).advanced
    · have holds : s.Holds q v := by rw [Store.Holds, hpending, hstamp]
      obtain ⟨d, hseek, hm⟩ := hlive hstamp
      rw [Sequence.lookahead_of_holds holds]
      exact .found hseek ⟨hm, h.left, holds⟩
    · -- what was held is out of date and is let go
      rw [Sequence.lookahead, Action.view_bind, Action.view_bind, hpending]
      simp only [if_neg hstamp]
      have hlt := exists_of_kept kept hq
      have left := h.setPending kept hq rfl (fun _ _ h => (nomatch h) : ∀ n v, none = some (n, v) → _)
      have hsource := left.keeps.source_eq hlt
      have hpipe := pipe_eq left.keeps hlt
      have hout := seek_outcome reads hq fuel (left.kept kept) (u := u)
        (by rw [hsource]; exact left.stands) hheight hpipe.symm hsource.symm
      simp only [Looked, hpipe, hsource] at hout
      refine hout.imp id ?_ left.trans id
      rintro x w z s' ⟨hm, left', holds⟩
      exact ⟨hm, left.trans left', holds⟩

/-- A look ahead with one budget for its rounds and its depth. -/
theorem lookahead_outcome (reads : E.Reads depth height) (hq : E.watched q)
    (kept : E.start.Keeps E.own s) (h : E.Stands s (s.sequence q).source u W)
    (hheight : u.height ≤ height) :
    E.Looked s q u W (Short (Seeks E.reading (s.sequence q).pipe u) u depth)
      (Sequence.lookahead E.call (.ofDepth E.call depth) depth q s) := by
  refine (lookahead_rounds reads hq depth kept h hheight).imp id id id fun hshort a w hseek => ?_
  have := hshort a w hseek
  have := u.height_pos
  omega

/-- A look ahead finds the element that a supply has next, with as much budget as supplies are nested
and elements are passed. -/
theorem lookahead_of_seeks_some (reads : E.Reads depth height) (hq : E.watched q)
    (kept : E.start.Keeps E.own s) (h : E.Stands s (s.sequence q).source u W)
    (hheight : u.height ≤ height) {x : D} {w : Supply D}
    (hseek : Seeks E.reading (s.sequence q).pipe u (.ok (some x)) w)
    (hdepth : u.height + (w.moved - u.moved) ≤ depth) :
    ∃ v s', Sequence.lookahead E.call (.ofDepth E.call depth) depth q s = .ok (some v) s' ∧
      E.reading.means s' v x ∧ E.Left s (s.sequence q).source w W s' ∧ s'.Holds q v := by
  have hlook := lookahead_outcome reads hq kept h hheight
  generalize Sequence.lookahead _ _ depth q s = res at hlook ⊢
  cases hlook with
  | ended hseek' _ => cases (hseek.unique hseek').1
  | failed hseek' _ => cases (hseek.unique hseek').1
  | short hshort => exact absurd (hshort _ _ hseek) (Nat.not_lt.mpr hdepth)
  | found hseek' hfound =>
    obtain ⟨hx, rfl⟩ := hseek.unique hseek'
    cases hx
    exact ⟨_, _, rfl, hfound⟩

/-- A look ahead finds the end of a supply in the same way. -/
theorem lookahead_of_seeks_none (reads : E.Reads depth height) (hq : E.watched q)
    (kept : E.start.Keeps E.own s) (h : E.Stands s (s.sequence q).source u W)
    (hheight : u.height ≤ height) {w : Supply D}
    (hseek : Seeks E.reading (s.sequence q).pipe u (.ok none) w)
    (hdepth : u.height + (w.moved - u.moved) ≤ depth) :
    ∃ s', Sequence.lookahead E.call (.ofDepth E.call depth) depth q s = .ok none s' ∧
      E.Left s (s.sequence q).source w W s' := by
  have hlook := lookahead_outcome reads hq kept h hheight
  generalize Sequence.lookahead _ _ depth q s = res at hlook ⊢
  cases hlook with
  | found hseek' _ => cases (hseek.unique hseek').1
  | failed hseek' _ => cases (hseek.unique hseek').1
  | short hshort => exact absurd (hshort _ _ hseek) (Nat.not_lt.mpr hdepth)
  | ended hseek' left =>
    obtain ⟨-, rfl⟩ := hseek.unique hseek'
    exact ⟨_, rfl, left⟩

/-- An element that is held lies in place at the source. -/
theorem Stands.held (h : E.Stands s (s.sequence q).source u W) (hq : E.watched q) {v : Value}
    (holds : s.Holds q v) :
    ∃ d, Seeks E.reading (s.sequence q).pipe u (.ok (some d)) u ∧ E.reading.means s v d :=
  (h.coherent hq rfl _ v holds).2 rfl

/-- **An element that is held is what is delivered**, and the source is left after it, with as much
budget as supplies are nested. -/
theorem next_of_holds (reads : E.Reads depth height) (hq : E.watched q)
    (kept : E.start.Keeps E.own s) (h : E.Stands s (s.sequence q).source u W)
    (hheight : u.height ≤ height) {v : Value} (holds : s.Holds q v) (fuel : Nat) (p : Position) :
    (∃ s', Sequence.next E.call (.ofDepth E.call depth) fuel q p s = .ok v s' ∧
      E.Left s (s.sequence q).source u.drop W s' ∧
      (s'.source (s.sequence q).source).advanced = (s.source (s.sequence q).source).advanced + 1) ∨
    (∃ s', Sequence.next E.call (.ofDepth E.call depth) fuel q p s = .error .outOfFuel s' ∧
      depth < u.height) := by
  obtain ⟨d, hseek, -⟩ := h.held hq holds
  obtain ⟨x, hlook⟩ := hseek.looks
  rw [Sequence.next_some (Sequence.lookahead_of_holds holds)]
  obtain ⟨o, s', hres, left, hadvanced⟩ | ⟨s', hres, hshort⟩ :=
    reads.consumed kept h hheight hlook (s.sequence q).position
  · have hsource := left.keeps.source_eq (exists_of_kept kept hq)
    refine .inl ⟨s'.setPending q none, ?_, left.trans ?_, hadvanced⟩
    · rw [Action.bind_ok hres]
      rfl
    · exact left.stands.setPending (left.kept kept) hq hsource fun _ _ h => nomatch h
  · exact .inr ⟨s', Action.bind_error hres _, hshort⟩

/-- An element that is found is delivered as one that was held. -/
theorem next_of_found (reads : E.Reads depth height) (hq : E.watched q)
    (kept : E.start.Keeps E.own s) {s₁ : Store} {v : Value} {fuel : Nat}
    (hfound : Sequence.lookahead E.call (.ofDepth E.call depth) fuel q s = .ok (some v) s₁)
    (left : E.Left s (s.sequence q).source u W s₁) (holds : s₁.Holds q v)
    (hheight : u.height ≤ height) (p : Position) :
    (∃ s', Sequence.next E.call (.ofDepth E.call depth) fuel q p s = .ok v s' ∧
      E.Left s₁ (s.sequence q).source u.drop W s') ∨
    (∃ s', Sequence.next E.call (.ofDepth E.call depth) fuel q p s = .error .outOfFuel s' ∧
      depth < u.height) := by
  have hsource := left.keeps.source_eq (exists_of_kept kept hq)
  have hnext := next_of_holds reads hq (left.kept kept) (by rw [hsource]; exact left.stands) hheight
    holds fuel p
  rw [← Sequence.next_eq_of_found hfound holds, hsource] at hnext
  exact hnext.imp_left fun ⟨s', hnext, left', _⟩ => ⟨s', hnext, left'⟩

end Looking

end Setting

end Abacus
