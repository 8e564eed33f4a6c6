import Abacus.Proofs.Sequence.Taking

/-!
# The first survivors

What `take(s, n)` is to give is said in two ways. Of any sequence it is what the sequence gives when
it is read alone, `n` times (`Reader.first`). Of a sequence over a supply it is what survives of the
raw elements that the supply has (`Survivors`): each is looked at, goes through the pipe and is
consumed, until `n` have survived or the supply ends.

**The law** (`Setting.take_collects_first`): collecting `take(s, n)` gives the first `n` survivors of
`s` and leaves `s` after the last of them. What would be had of later elements does not matter, nor
what a function would do with them; and of nothing nothing is asked.
-/

namespace Abacus

section Survivors

variable {own : SourceId → Prop} {D : Type} {R : Reading own D} {P : Pipe} {n : Nat}
  {u w : Supply D} {xs : List D}

/-- The first elements of a sequence over a supply, or all of them if there are fewer, and the supply
as they leave it: right after the raw element of the last one, or at its end. -/
inductive Survivors (R : Reading own D) (P : Pipe) : Nat → Supply D → List D → Supply D → Prop
  | enough {u : Supply D} : Survivors R P 0 u [] u
  | ended {n : Nat} {u w : Supply D} : Seeks R P u (.ok none) w → Survivors R P (n + 1) u [] w
  | more {n : Nat} {u w z : Supply D} {x : D} {xs : List D} : Seeks R P u (.ok (some x)) w →
    Survivors R P n w.drop xs z → Survivors R P (n + 1) u (x :: xs) z

/-- A supply that is read is nested as deeply as before. -/
theorem Survivors.height_eq (h : Survivors R P n u xs w) : w.height = u.height := by
  induction h with
  | enough => rfl
  | ended hseek => exact hseek.height_eq
  | more hseek _ ih => rw [ih, Supply.height_drop, hseek.height_eq]

/-- And does not go back. -/
theorem Survivors.moved_le (h : Survivors R P n u xs w) : u.moved ≤ w.moved := by
  induction h with
  | enough => exact Nat.le_refl _
  | ended hseek => exact hseek.moved_le
  | @more _ _ w' _ _ _ hseek _ ih =>
    exact Nat.le_trans hseek.moved_le (Nat.le_trans (Nat.le_of_lt w'.moved_lt_drop) ih)

end Survivors

namespace Setting

variable {D : Type} {E : Setting D} {q : SequenceId} {n depth : Nat} {s s' : Store}
  {u w : Supply D} {W : List SourceId} {xs : List D}

/-- **A sequence that is read alone gives its first survivors**, with as much budget as supplies are
nested and raw elements are consumed. -/
theorem Stands.first_survivors (kept : E.start.Keeps E.own s)
    (h : E.Stands s (s.sequence q).source u W) (hq : E.watched q)
    (survive : Survivors E.reading (s.sequence q).pipe n u xs w)
    (hdepth : u.height + (w.moved - u.moved) ≤ depth) :
    ∃ vs s', (Reader.ofDepth E.call (depth + 1)).first q n s = .ok vs s' ∧
      List.Forall₂ (E.reading.means s') vs xs ∧ E.Left s (s.sequence q).source w W s' := by
  generalize hP : (s.sequence q).pipe = P at survive
  induction survive generalizing s with
  | enough => exact ⟨[], s, rfl, .nil, h.left⟩
  | @ended n u w hseek =>
    subst hP
    obtain ⟨s', hres, left⟩ :=
      lookahead_of_seeks_none (E.reads depth u.height) hq kept h (Nat.le_refl _) hseek hdepth
    refine ⟨[], s', ?_, .nil, left⟩
    rw [Reader.first, Action.bind_ok (Reader.atEnd_ok hres)]
    rfl
  | @more n u w z x xs hseek rest ih =>
    subst hP
    have hle := hseek.moved_le
    have hdrop := w.moved_lt_drop
    have hrest := rest.moved_le
    have hheight := hseek.height_eq
    have hlt := exists_of_kept kept hq
    obtain ⟨v, s₁, hres, hm, left, holds⟩ :=
      lookahead_of_seeks_some (E.reads depth u.height) hq kept h (Nat.le_refl _) hseek (by omega)
    have hsource := left.keeps.source_eq hlt
    obtain ⟨s₂, hnext, given⟩ | ⟨_, -, hshort⟩ := reader_next (E.reads depth u.height) hq
      (left.kept kept) (by rw [hsource]; exact left.stands) (Nat.le_of_eq hheight) holds false
    · rw [hsource] at given
      have left₂ : E.Left s (s.sequence q).source w.drop W s₂ := left.trans given
      have hsource₂ := left₂.keeps.source_eq hlt
      obtain ⟨vs, s₃, hfirst, hall, left₃⟩ := ih (left₂.kept kept)
        (by rw [hsource₂]; exact left₂.stands) (by rw [Supply.height_drop, hheight]; omega)
        (pipe_eq left₂.keeps hlt)
      rw [hsource₂] at left₃
      refine ⟨v :: vs, s₃, ?_, .cons ?_ hall, left₂.trans left₃⟩
      · rw [Reader.first, Action.bind_ok (Reader.atEnd_ok hres)]
        show ((Reader.ofDepth E.call (depth + 1)).next q false >>= _) s₁ = _
        rw [Action.bind_ok hnext, Action.bind_ok hfirst]
        rfl
      · have behind := given.keeps.trans left₃.keeps
        exact E.reading.means_keeps (behind.mono left₃.stands.own_of_mem) hm
    · omega

/-- **Collecting what is taken of a sequence gives its first survivors and leaves it after the last of
them.** The functions on which the sequence draws are effect-free, and nobody else reads it.

If the sequence gives so many elements when it is read alone, or all that it has, then the vector
holds them, and whatever is read afterwards is read as after them. If its source has a supply, then
the vector holds the first survivors of the supply, and the source stands where they leave it. The
call of the setting may refuse whatever is not needed for that: any other call that answers where it
does makes no difference, so no function is applied to a later element. And if nothing is to be taken,
then nothing changes that was there, and nothing at all is called or read. -/
theorem take_collects_first (closed : E.Closed) (hq : E.watched q)
    (hown : E.own ⟨E.start.sources.size⟩) {count : Int64} (hcount : 0 ≤ count.toInt)
    (p last : Position) :
    (∀ {depth : Nat} {vs : List Value} {s₁ : Store},
      (Reader.ofDepth E.call depth).first q count.toInt.toNat E.start = .ok vs s₁ →
      ∀ {call : Call} {fuel : Nat}, E.call.Below call → depth ≤ fuel → count.toInt.toNat < fuel →
        ∃ x s₂, Native.collectTake (.ofDepth call fuel) p last q count E.start = .ok x s₂ ∧
          E.Lines s₂ s₁ x vs ∧ E.Twins s₂ s₁ ∧
          ∀ depth, E.Abreast E.Same s₂ s₁ ((Reader.ofDepth E.call depth).next q false s₂)
            ((Reader.ofDepth E.call depth).next q false s₁)) ∧
    ((∀ s, Relator.RightUnique (E.reading.means s)) →
      ∀ {u w : Supply D} {W : List SourceId} {xs : List D},
        E.Stands E.start (E.start.sequence q).source u W →
        Survivors E.reading (E.pipe q) count.toInt.toNat u xs w →
        ∀ {call : Call} {fuel : Nat}, E.call.Below call → u.height + (w.moved - u.moved) < fuel →
          count.toInt.toNat < fuel →
          ∃ x s₂, Native.collectTake (.ofDepth call fuel) p last q count E.start = .ok x s₂ ∧
            E.reading.IsVector s₂ x xs ∧ E.Stands s₂ (E.start.sequence q).source w W) ∧
    (count = 0 → ∀ machine : Machine, 0 < machine.fuel →
      ∃ w s₂, Native.collectTake machine p last q count E.start = .ok (.vector w) s₂ ∧
        s₂.items w = [] ∧ E.start.Grows s₂) := by
  refine ⟨fun alone _ _ hcall hdepth hfuel => ?_,
    fun unique _ _ _ _ h survive _ _ hcall hdepth hfuel => ?_, fun hzero machine hfuel => ?_⟩
  · obtain ⟨x, s₂, hrun, lines, twins⟩ :=
      closed.collectTake_of_first hq hown hcount p last alone hcall hdepth hfuel
    exact ⟨x, s₂, hrun, lines, twins, fun depth => (reader_abreast E depth).next false twins hq⟩
  · obtain ⟨vs, s₁, alone, hall, left⟩ := h.first_survivors (.refl _ _) hq survive (Nat.le_refl _)
    obtain ⟨x, s₂, hrun, ⟨w, rfl, hlt, lines⟩, twins⟩ :=
      closed.collectTake_of_first hq hown hcount p last alone hcall hdepth hfuel
    have same : List.Forall₂ (E.Same s₁ s₂) vs (s₂.items w) := lines.flip.imp fun _ _ => .symm
    exact ⟨_, s₂, hrun, ⟨w, rfl, hlt, all_same unique same hall⟩,
      left.stands.twins unique twins.symm (feeds_of_watched hq)⟩
  · subst hzero
    exact closed.collectTake_zero hown machine hfuel p last q

end Setting

/-! ## Taking from an endless sequence -/

/-- The function `|x| x + 0`. -/
def plusZero : Value := .function (.operating 1 ⟨0⟩ "x" .add (.integer 0) .start)

/-- What is below two of all the numbers from zero on: after two of them, a search has no end. -/
def endlessBelowTwo : Setting Datum where
  own id := id.index < 2
  reading := Datum.reading _
  stream _ := (Datum.reading (·.index < 2)).indexElement plusZero none .start
  limit _ := 0
  call := Action.apply 1
  start := .withSources #[⟨.index plusZero 0 none none .start, 0, false⟩]
    #[⟨⟨0⟩, [.filter Cursor.belowTwo], none, .start⟩]
  watched := (· = ⟨0⟩)
  exists_of_watched := by
    rintro _ rfl
    decide
  free_of_watched := by
    rintro _ rfl t ht
    obtain rfl := List.mem_singleton.mp ht
    exact Datum.operating_effectFree (show Datum.IsPlain .less from trivial) (by decide) (by decide)

/-- The two numbers are taken, and the third one is not asked for. -/
theorem endlessBelowTwo_take_two :
    ∃ x s, Native.collectTake (.ofDepth (Action.apply 1) 4) .start .start ⟨0⟩ 2
        endlessBelowTwo.start = .ok x s ∧
      endlessBelowTwo.reading.IsVector s x [.number (.integer 0), .number (.integer 1)] ∧
      (s.source ⟨0⟩).advanced = 2 := by
  have free : endlessBelowTwo.reading.EffectFree endlessBelowTwo.call endlessBelowTwo.start plusZero :=
    Datum.operating_effectFree (show Datum.IsPlain .add from trivial) (by decide) (by decide)
  have hat : endlessBelowTwo.At endlessBelowTwo.start (endlessBelowTwo.stream ⟨0⟩) 0
      (.index plusZero 0 none none .start) := .index free (fun _ => rfl) (fun _ h => nomatch h)
  have closed : endlessBelowTwo.Closed := by
    have only : ∀ {id}, endlessBelowTwo.Feeds id → id = ⟨0⟩ := by
      rintro _ ⟨q, rfl, rfl⟩
      rfl
    refine ⟨.refl _ _, .refl _ _, fun h => ?_, fun h => ?_, fun _ => rfl, fun _ => rfl, fun h => ?_,
      fun h => ?_⟩
    · cases only h
      exact Nat.zero_lt_two
    · cases only h
      decide
    · cases only h
      exact .index free .none
    · cases h
      exact .none
  have unread : endlessBelowTwo.Unread ⟨0⟩ (.index plusZero 0 none none .start) := by
    refine ⟨by decide, Nat.zero_lt_two, rfl, ?_⟩
    rintro q rfl -
    rfl
  have stands : endlessBelowTwo.Stands endlessBelowTwo.start ⟨0⟩
      (.raw (endlessBelowTwo.stream ⟨0⟩) 0) [⟨0⟩] :=
    unread.stands (.raw hat) ⟨rfl, rfl⟩ List.not_mem_nil
  have survive : Survivors endlessBelowTwo.reading (endlessBelowTwo.pipe ⟨0⟩) 2
      (.raw (endlessBelowTwo.stream ⟨0⟩) 0) [.number (.integer 0), .number (.integer 1)]
      (.raw (endlessBelowTwo.stream ⟨0⟩) 2) :=
    .more (.found (.raw rfl) rfl (by nofun)) (.more (.found (.raw rfl) rfl (by nofun)) .enough)
  obtain ⟨x, s, hrun, hvector, left⟩ := (Setting.take_collects_first closed rfl Nat.one_lt_two
    (show 0 ≤ (2 : Int64).toInt by decide) .start .start).2.1 (fun _ _ _ _ h h' => h.unique h') stands
    survive (.refl _) (show 1 + (2 - 0) < 4 by decide) (show (2 : Int64).toInt.toNat < 4 by decide)
  refine ⟨x, s, hrun, hvector, ?_⟩
  cases left with
  | mk _ _ _ counted _ _ _ => exact counted.2.symm

end Abacus
