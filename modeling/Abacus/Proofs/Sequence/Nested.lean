import Abacus.Proofs.Sequence.Looking

/-!
# Sequences that take from sequences

A generator that takes from sequences asks them twice: whether there is an element, and then for the
element. What the first question finds is held, so the second one gets the same. Two sides of a pair
with sources of their own do not disturb each other between the questions.

**The law** (`Setting.reads`): a source whose supply stands is read as `Looks` answers, however deeply
sequences are nested, by a reader that reaches deeply enough.
-/

namespace Abacus

/-- The next elements of two sequences as a pair. -/
def Reader.pair (reader : Reader) (peek : Bool) (l r : SequenceId) : Action Value := do
  let a ← reader.next l peek
  let b ← reader.next r peek
  Action.newVector [a, b]

namespace Generator

variable {call : Call} {reader : Reader} {peek : Bool} {q l r : SequenceId} {n : Nat}

/-- When nothing is left to take, nothing is read. -/
theorem pull_take_zero : pull call reader peek (.take q 0) = pure none := rfl

/-- Otherwise the sequence is asked for its end and then for an element. -/
theorem pull_take_succ :
    pull call reader peek (.take q (n + 1)) = (do
      if ← reader.atEnd q then return none
      let v ← reader.next q peek
      return some (v, .take q (if peek then n + 1 else n))) := by
  rw [pull, next, atEnd]
  simp only [Nat.add_one_ne_zero, if_false, Nat.add_sub_cancel, bind_assoc, pure_bind]

/-- A zip asks both its sides for their ends, and then both for elements. -/
theorem pull_zip :
    pull call reader peek (.zip l r) = (do
      if ← reader.atEnd l then return none
      if ← reader.atEnd r then return none
      return some (← reader.pair peek l r, .zip l r)) := by
  rw [pull, next, atEnd]
  simp only [Reader.pair, bind_assoc]
  congr 1
  funext left
  cases left with
  | true => rfl
  | false => rfl

end Generator

namespace Reader

variable {call : Call} {depth : Nat} {q : SequenceId} {s s' : Store}

/-- A reader at one depth more tells the end by looking ahead. -/
theorem atEnd_ok {o : Option Value}
    (h : Sequence.lookahead call (ofDepth call depth) depth q s = .ok o s') :
    (ofDepth call (depth + 1)).atEnd q s = .ok o.isNone s' := Sequence.atEnd_ok h

/-- And fails if that does. -/
theorem atEnd_error {e : Interruption}
    (h : Sequence.lookahead call (ofDepth call depth) depth q s = .error e s') :
    (ofDepth call (depth + 1)).atEnd q s = .error e s' := Sequence.atEnd_error h

end Reader

namespace Setting

variable {D : Type} {E : Setting D} {depth height : Nat}

/-! ## One side -/

section Side

variable {s s' : Store} {u w : Supply D} {W : List SourceId} {q : SequenceId} {n : Nat}

/-- What a sequence stands on supplies what is taken of it. -/
theorem supplies_take {own : SourceId → Prop} (kept : s.Keeps own s')
    (hlt : q.index < s.sequences.size) (hq : E.watched q)
    (h : E.Stands s' (s.sequence q).source u W) :
    E.Supplies s' (.take q n) (.take (s.sequence q).pipe u n) W := by
  rw [← pipe_eq kept hlt]
  rw [← kept.source_eq hlt] at h
  exact .take hq h

/-- A reader gives what a sequence holds. -/
theorem reader_next (reads : E.Reads depth height) (hq : E.watched q)
    (kept : E.start.Keeps E.own s) (h : E.Stands s (s.sequence q).source u W)
    (hheight : u.height ≤ height) {v : Value} (holds : s.Holds q v) (peek : Bool) :
    (∃ s', (Reader.ofDepth E.call (depth + 1)).next q peek s = .ok v s' ∧
      E.Left s (s.sequence q).source (u.after peek) W s') ∨
    (∃ s', (Reader.ofDepth E.call (depth + 1)).next q peek s = .error .outOfFuel s' ∧
      depth < u.height) := by
  cases peek with
  | true => exact .inl ⟨s, Sequence.peek_some (Sequence.lookahead_of_holds holds), h.left⟩
  | false =>
    obtain ⟨s', hnext, left, -⟩ | hshort :=
      next_of_holds reads hq kept h hheight holds depth (s.sequence q).position
    · exact .inl ⟨s', hnext, left⟩
    · exact .inr hshort

/-- The first elements of a sequence are had as the sequence has them. -/
theorem take_outcome (reads : E.Reads depth height) (hq : E.watched q)
    (kept : E.start.Keeps E.own s) (h : E.Stands s (s.sequence q).source u W)
    (hheight : u.height ≤ height) (peek : Bool) :
    E.Pulled s (.take (s.sequence q).pipe u (n + 1)) W (depth + 1) peek (.take q (n + 1))
      (Generator.pull E.call (.ofDepth E.call (depth + 1)) peek (.take q (n + 1)) s) := by
  have hlt := exists_of_kept kept hq
  rw [Generator.pull_take_succ]
  have hout := lookahead_outcome reads hq kept h hheight
  generalize hres : Sequence.lookahead _ _ _ _ s = res at hout
  cases hout with
  | ended hseek left =>
    rw [Action.bind_ok (Reader.atEnd_ok hres)]
    exact .ended (.take hseek) ⟨supplies_take left.keeps hlt hq left.stands, left.keeps⟩
  | failed hseek left =>
    rw [Action.bind_error (Reader.atEnd_error hres)]
    exact .failed (.take hseek) ⟨supplies_take left.keeps hlt hq left.stands, left.keeps⟩
  | short hshort =>
    rw [Action.bind_error (Reader.atEnd_error hres)]
    refine .short fun a w hlook => ?_
    cases hlook with
    | take hseek =>
      have := hshort _ _ hseek
      simp only [Supply.height, Supply.moved]
      omega
  | @found x w v s₁ hseek hfound =>
    obtain ⟨hm, left, holds⟩ := hfound
    rw [Action.bind_ok (Reader.atEnd_ok hres)]
    have hsource := left.keeps.source_eq hlt
    have hnext := reader_next reads hq (left.kept kept) (by rw [hsource]; exact left.stands)
      (by rw [hseek.height_eq]; exact hheight) holds peek
    obtain ⟨s₂, hres₂, left₂⟩ | ⟨s₂, hres₂, hshort⟩ := hnext
    · show E.Pulled s _ W _ peek _ (((Reader.ofDepth E.call (depth + 1)).next q peek >>= _) s₁)
      rw [Action.bind_ok hres₂]
      rw [hsource] at left₂
      have keeps := left.keeps.trans left₂.keeps
      refine .found (.take hseek) ⟨?_, ?_, keeps⟩
      · exact E.reading.means_keeps (left₂.keeps.mono left₂.stands.own_of_mem) hm
      · cases peek with
        | true => exact supplies_take keeps hlt hq left₂.stands
        | false => exact supplies_take keeps hlt hq left₂.stands
    · show E.Pulled s _ W _ peek _ (((Reader.ofDepth E.call (depth + 1)).next q peek >>= _) s₁)
      rw [Action.bind_error hres₂]
      refine .short fun a w' _ => ?_
      have := hseek.height_eq
      simp only [Supply.height]
      omega

end Side

/-! ## Two sides -/

/-- Two sides of a pair as they stand after something was read from them. -/
structure Sides (E : Setting D) (s : Store) (l r : SourceId) (u v : Supply D)
    (W V : List SourceId) (s' : Store) : Prop where
  first : E.Stands s' l u W
  second : E.Stands s' r v V
  keeps : s.Keeps (· ∈ W ++ V) s'

section Sides

variable {s s' s'' : Store} {l r : SourceId} {u u' v v' : Supply D} {W V : List SourceId}

/-- Reading the sides keeps what the start had. -/
theorem Sides.kept (h : E.Sides s l r u v W V s') (kept : E.start.Keeps E.own s) :
    E.start.Keeps E.own s' := by
  refine kept.trans (h.keeps.mono fun id hid => ?_)
  exact (List.mem_append.mp hid).elim (h.first.own_of_mem id) (h.second.own_of_mem id)

/-- A read of the first side leaves the second one standing. -/
theorem Sides.read_first (h : E.Sides s l r u v W V s') (kept : E.start.Keeps E.own s)
    (disjoint : ∀ id ∈ W, id ∉ V) (left : E.Left s' l u' W s'') : E.Sides s l r u' v W V s'' where
  first := left.stands
  second := h.second.keeps (h.kept kept) left.keeps left.stands.own_of_mem
    fun id hid hW => disjoint id hW hid
  keeps := h.keeps.trans (left.keeps.mono fun _ hid => List.mem_append_left _ hid)

/-- A read of the second side leaves the first one standing. -/
theorem Sides.read_second (h : E.Sides s l r u v W V s') (kept : E.start.Keeps E.own s)
    (disjoint : ∀ id ∈ W, id ∉ V) (left : E.Left s' r v' V s'') : E.Sides s l r u v' W V s'' where
  first := h.first.keeps (h.kept kept) left.keeps left.stands.own_of_mem disjoint
  second := left.stands
  keeps := h.keeps.trans (left.keeps.mono fun _ hid => List.mem_append_right _ hid)

/-- A store that grows behind them leaves the sides where they are. -/
theorem Sides.grow (h : E.Sides s l r u v W V s') (kept : E.start.Keeps E.own s)
    (grown : s'.Grows s'') : E.Sides s l r u v W V s'' where
  first := h.first.keeps (h.kept kept) grown (fun _ h => h.elim) fun _ _ h => h
  second := h.second.keeps (h.kept kept) grown (fun _ h => h.elim) fun _ _ h => h
  keeps := h.keeps.trans (grown.keeps _)

end Sides

section Pair

variable {s s' : Store} {l r : SequenceId} {u v : Supply D} {W V : List SourceId}

/-- What the first sequence holds is held while the second side is read. -/
theorem Sides.holds_first {R : SourceId} {s'' : Store} {a : Value}
    (h : E.Sides s (s.sequence l).source R u v W V s') (kept : E.start.Keeps E.own s)
    (hl : E.watched l) (disjoint : ∀ id ∈ W, id ∉ V) (ha : s'.Holds l a)
    (keeps : s'.Keeps (· ∈ V) s'') : s''.Holds l a := by
  have hsource := h.keeps.source_eq (exists_of_kept kept hl)
  refine ha.keeps keeps (exists_of_kept (h.kept kept) hl) ?_ ?_
  · rw [hsource]
    exact h.first.lt
  · rw [hsource]
    exact disjoint _ h.first.mem

/-- What the second sequence holds is held while the first side is read. -/
theorem Sides.holds_second {L : SourceId} {s'' : Store} {b : Value}
    (h : E.Sides s L (s.sequence r).source u v W V s') (kept : E.start.Keeps E.own s)
    (hr : E.watched r) (disjoint : ∀ id ∈ W, id ∉ V) (hb : s'.Holds r b)
    (keeps : s'.Keeps (· ∈ W) s'') : s''.Holds r b := by
  have hsource := h.keeps.source_eq (exists_of_kept kept hr)
  refine hb.keeps keeps (exists_of_kept (h.kept kept) hr) ?_ ?_
  · rw [hsource]
    exact h.second.lt
  · rw [hsource]
    exact fun hW => disjoint _ hW h.second.mem

/-- What both sides stand on supplies the zip. -/
theorem supplies_zip (kept : E.start.Keeps E.own s) (hl : E.watched l) (hr : E.watched r)
    (disjoint : ∀ id ∈ W, id ∉ V)
    (h : E.Sides s (s.sequence l).source (s.sequence r).source u v W V s') :
    E.Supplies s' (.zip l r) (.zip (s.sequence l).pipe u (s.sequence r).pipe v) (W ++ V) := by
  have hllt := exists_of_kept kept hl
  have hrlt := exists_of_kept kept hr
  rw [← pipe_eq h.keeps hllt, ← pipe_eq h.keeps hrlt]
  refine .zip hl hr ?_ ?_ disjoint
  · rw [h.keeps.source_eq hllt]
    exact h.first
  · rw [h.keeps.source_eq hrlt]
    exact h.second

/-- The budget that the first side of a pair lacks, the pair lacks. -/
theorem short_of_first {P Q : Pipe} (h : Short (Seeks E.reading P u) u depth) :
    Short (Looks E.reading (.zip P u Q v)) (.zip P u Q v) (depth + 1) := by
  intro a w hlook
  cases hlook with
  | left hseek _ | both hseek _ | right hseek _ _ =>
    have := h _ _ hseek
    simp only [Supply.height, Supply.moved]
    first
    | have := Seeks.moved_le ‹Seeks E.reading Q v _ _›
      omega
    | omega

/-- The budget that the second side of a pair lacks, the pair lacks. -/
theorem short_of_second {P Q : Pipe} {w : Supply D} {x : D}
    (hseek : Seeks E.reading P u (.ok (some x)) w) (h : Short (Seeks E.reading Q v) v depth) :
    Short (Looks E.reading (.zip P u Q v)) (.zip P u Q v) (depth + 1) := by
  intro a z hlook
  cases hlook with
  | left hseek' stop => exact absurd (hseek'.unique hseek).1 (stop x)
  | right hseek' hseek₁ _ | both hseek' hseek₁ =>
    have := h _ _ hseek₁
    have := hseek'.moved_le
    simp only [Supply.height, Supply.moved]
    omega

/-- Two elements that are held are delivered as a pair. -/
theorem deliver_pair (reads : E.Reads depth height) (hl : E.watched l) (hr : E.watched r)
    (kept : E.start.Keeps E.own s) (disjoint : ∀ id ∈ W, id ∉ V)
    (h : E.Sides s (s.sequence l).source (s.sequence r).source u v W V s')
    (hu : u.height ≤ height) (hv : v.height ≤ height) {a b : Value} {x y : D}
    (ha : s'.Holds l a) (hb : s'.Holds r b) (hx : E.reading.means s' a x)
    (hy : E.reading.means s' b y) (peek : Bool) :
    (∃ id s'', (Reader.ofDepth E.call (depth + 1)).pair peek l r s' = .ok (.vector id) s'' ∧
      E.Sides s (s.sequence l).source (s.sequence r).source (u.after peek) (v.after peek) W V s'' ∧
      s''.vector id = #[a, b] ∧ E.reading.means s'' (.vector id) (E.reading.pair x y)) ∨
    (∃ s'', (Reader.ofDepth E.call (depth + 1)).pair peek l r s' = .error .outOfFuel s'' ∧
      depth < max u.height v.height) := by
  have hlsource := h.keeps.source_eq (exists_of_kept kept hl)
  have hlnext := reader_next reads hl (h.kept kept) (by rw [hlsource]; exact h.first) hu ha peek
  obtain ⟨s₁, hres, left⟩ | ⟨s₁, hres, hshort⟩ := hlnext
  · rw [hlsource] at left
    have h₁ := h.read_first kept disjoint left
    have hrsource₁ := h₁.keeps.source_eq (exists_of_kept kept hr)
    have hb₁ : s₁.Holds r b := h.holds_second kept hr disjoint hb left.keeps
    have hrnext := reader_next reads hr (h₁.kept kept) (by rw [hrsource₁]; exact h₁.second) hv hb₁ peek
    obtain ⟨s₂, hres₂, right⟩ | ⟨s₂, hres₂, hshort⟩ := hrnext
    · rw [hrsource₁] at right
      have h₂ := h₁.read_second kept disjoint right
      have grown := Store.grows_addVector s₂ #[a, b]
      refine .inl ⟨_, _, (Action.bind_ok hres _).trans (Action.bind_ok hres₂ _),
        h₂.grow kept grown, Store.vector_addVector_new #[a, b], ?_⟩
      have kept₁ := left.keeps.mono left.stands.own_of_mem
      have kept₂ := kept₁.trans (right.keeps.mono right.stands.own_of_mem)
      refine E.reading.means_pair ?_ (Store.vector_addVector_new #[a, b]) ?_ ?_
      · simp only [Store.addVector, Array.size_push, Nat.lt_succ_self]
      · exact E.reading.means_keeps (kept₂.trans (grown.keeps _)) hx
      · exact E.reading.means_keeps (kept₂.trans (grown.keeps _)) hy
    · exact .inr ⟨s₂, (Action.bind_ok hres _).trans (Action.bind_error hres₂ _),
        Nat.lt_of_lt_of_le hshort (Nat.le_max_right _ _)⟩
  · exact .inr ⟨s₁, Action.bind_error hres _, Nat.lt_of_lt_of_le hshort (Nat.le_max_left _ _)⟩

/-- The pairs of two sequences with sources of their own are had as the sequences have their
elements. -/
theorem zip_outcome (reads : E.Reads depth height) (hl : E.watched l) (hr : E.watched r)
    (kept : E.start.Keeps E.own s) (disjoint : ∀ id ∈ W, id ∉ V)
    (hfirst : E.Stands s (s.sequence l).source u W) (hsecond : E.Stands s (s.sequence r).source v V)
    (hu : u.height ≤ height) (hv : v.height ≤ height) (peek : Bool) :
    E.Pulled s (.zip (s.sequence l).pipe u (s.sequence r).pipe v) (W ++ V) (depth + 1) peek
      (.zip l r) (Generator.pull E.call (.ofDepth E.call (depth + 1)) peek (.zip l r) s) := by
  rw [Generator.pull_zip]
  have h : E.Sides s (s.sequence l).source (s.sequence r).source u v W V s :=
    ⟨hfirst, hsecond, .refl _ _⟩
  have hout := lookahead_outcome reads hl kept hfirst hu
  generalize hres : Sequence.lookahead _ _ _ l s = res at hout
  cases hout with
  | ended hseek left =>
    have h₁ := h.read_first kept disjoint left
    rw [Action.bind_ok (Reader.atEnd_ok hres)]
    exact .ended (.left hseek isStop_none)
      ⟨supplies_zip kept hl hr disjoint h₁, h₁.keeps⟩
  | failed hseek left =>
    have h₁ := h.read_first kept disjoint left
    rw [Action.bind_error (Reader.atEnd_error hres)]
    exact .failed (.left hseek (isStop_error _))
      ⟨supplies_zip kept hl hr disjoint h₁, h₁.keeps⟩
  | short hshort =>
    rw [Action.bind_error (Reader.atEnd_error hres)]
    exact .short (short_of_first hshort)
  | @found x w a s₁ hseek hfound =>
    obtain ⟨hx, left, ha⟩ := hfound
    have h₁ := h.read_first kept disjoint left
    rw [Action.bind_ok (Reader.atEnd_ok hres)]
    show E.Pulled s _ _ _ peek _ (((Reader.ofDepth E.call (depth + 1)).atEnd r >>= _) s₁)
    have hrlt := exists_of_kept kept hr
    have hrsource := h₁.keeps.source_eq hrlt
    have hrpipe := pipe_eq h₁.keeps hrlt
    have hout₁ := lookahead_outcome reads hr (h₁.kept kept) (by rw [hrsource]; exact h₁.second) hv
    simp only [Looked, hrsource, hrpipe] at hout₁
    generalize hres₁ : Sequence.lookahead _ _ _ r s₁ = res₁ at hout₁
    cases hout₁ with
    | ended hseek₁ right =>
      have h₂ := h₁.read_second kept disjoint right
      rw [Action.bind_ok (Reader.atEnd_ok hres₁)]
      exact .ended (.right hseek hseek₁ isStop_none)
        ⟨supplies_zip kept hl hr disjoint h₂, h₂.keeps⟩
    | failed hseek₁ right =>
      have h₂ := h₁.read_second kept disjoint right
      rw [Action.bind_error (Reader.atEnd_error hres₁)]
      exact .failed (.right hseek hseek₁ (isStop_error _))
        ⟨supplies_zip kept hl hr disjoint h₂, h₂.keeps⟩
    | short hshort =>
      rw [Action.bind_error (Reader.atEnd_error hres₁)]
      exact .short (short_of_second hseek hshort)
    | @found y z b s₂ hseek₁ hfound₁ =>
      obtain ⟨hy, right, hb⟩ := hfound₁
      have h₂ := h₁.read_second kept disjoint right
      rw [Action.bind_ok (Reader.atEnd_ok hres₁)]
      have ha₂ : s₂.Holds l a := h₁.holds_first kept hl disjoint ha right.keeps
      have hx₂ := E.reading.means_keeps (right.keeps.mono right.stands.own_of_mem) hx
      have hdeliver := deliver_pair reads hl hr kept disjoint h₂ (by rw [hseek.height_eq]; exact hu)
        (by rw [hseek₁.height_eq]; exact hv) ha₂ hb hx₂ hy peek
      obtain ⟨id, s₃, hres₂, h₃, -, hm⟩ | ⟨s₃, hres₂, hshort⟩ := hdeliver
      · show E.Pulled s _ _ _ peek _ (((Reader.ofDepth E.call (depth + 1)).pair peek l r >>= _) s₂)
        rw [Action.bind_ok hres₂]
        refine .found (.both hseek hseek₁) ⟨hm, ?_, h₃.keeps⟩
        cases peek with
        | true => exact supplies_zip kept hl hr disjoint h₃
        | false => exact supplies_zip kept hl hr disjoint h₃
      · show E.Pulled s _ _ _ peek _ (((Reader.ofDepth E.call (depth + 1)).pair peek l r >>= _) s₂)
        rw [Action.bind_error hres₂]
        refine .short fun _ _ _ => ?_
        rw [hseek.height_eq, hseek₁.height_eq] at hshort
        simp only [Supply.height]
        omega

end Pair

/-! ## All supplies -/

/-- A reader that reaches no sequence has too little budget for what takes from one. -/
theorem pulled_of_depth_zero {s : Store} {u : Supply D} {W : List SourceId} {peek : Bool}
    {g : Generator} (h : g.pull E.call (.ofDepth E.call 0) peek s = .error .outOfFuel s) :
    E.Pulled s u W 0 peek g (g.pull E.call (.ofDepth E.call 0) peek s) := by
  rw [h]
  refine .short fun a w _ => ?_
  have := u.height_pos
  omega

/-- **A source whose supply stands is read as the supply answers.** -/
theorem reads (E : Setting D) (depth height : Nat) : E.Reads depth height := by
  induction height generalizing depth with
  | zero =>
    intro s id u W peek p _ _ hheight
    exact absurd u.height_pos (Nat.not_lt.mpr hheight)
  | succ height ih =>
    intro s id u W peek p kept h hheight
    obtain ⟨V, rfl⟩ : ∃ V, W = id :: V := by
      cases h with
      | mk => exact ⟨_, rfl⟩
    refine h.raw_outcome kept fun kept' hg => ?_
    generalize (s.source id).generator = g at hg
    cases hg with
    | raw hat => exact hat.pull_outcome kept' _ _ _
    | @take q u _ n hq hstands =>
      have hu : u.height ≤ height := Nat.le_of_succ_le_succ hheight
      cases n with
      | zero =>
        rw [Generator.pull_take_zero]
        exact .ended .taken ⟨.take hq hstands, .refl _ _⟩
      | succ n =>
        cases depth with
        | zero => exact pulled_of_depth_zero rfl
        | succ depth => exact take_outcome (ih depth) hq kept' hstands hu peek
    | @zip l r u v W V hl hr hfirst hsecond disjoint =>
      have hmax : max u.height v.height ≤ height := Nat.le_of_succ_le_succ hheight
      cases depth with
      | zero => exact pulled_of_depth_zero rfl
      | succ depth =>
        exact zip_outcome (ih depth) hl hr kept' disjoint hfirst hsecond
          (Nat.le_trans (Nat.le_max_left _ _) hmax) (Nat.le_trans (Nat.le_max_right _ _) hmax) peek

end Setting

end Abacus
