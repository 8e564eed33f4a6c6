import Abacus.Proofs.Sequence.Reading

/-!
# Supplies

What a sequence has to give, without the caches: a supply is a raw stream with a place in it, the
first elements of a sequence over another supply, or the pairs of two sequences over two supplies.
`Looks u a w` says that a look at the next raw element of `u` answers `a` and leaves the supply at
`w`; `Seeks P u a w` says it of a sequence over `u` whose transformers are those of the pipe `P`. A
look moves a supply only past elements that a filter rejects, and `Supply.drop` consumes the element
that is next.

**The laws.** A look has one answer (`Looks.unique`, `Seeks.unique`), and a second look answers the
same and moves nothing (`Looks.again`, `Seeks.again`). There need not be an answer: a filter may
reject the elements of an endless stream for ever.
-/

namespace Abacus

/-- The transformers of a sequence, and the position at which they run. -/
structure Pipe where
  transformers : List Transformer
  position : Position

/-- What a sequence does with the elements of its source. -/
def Sequence.pipe (q : Sequence) : Pipe := ⟨q.transformers, q.position⟩

/-- What a pipe makes of a datum; none if it rejects it. -/
def Reading.through {own : SourceId → Prop} {D : Type} (R : Reading own D) (P : Pipe) (d : D) :
    Except Interruption (Option D) :=
  R.transform P.position P.transformers d

/-- What a generator gives elements from: a stream, or sequences over other supplies. -/
inductive Supply (D : Type) where
  /-- The elements of a stream from a place on; its end comes as none. -/
  | raw (stream : Nat → Except Interruption (Option D)) (place : Nat)
  /-- At most so many elements of a sequence over a supply. -/
  | take (pipe : Pipe) (supply : Supply D) (remaining : Nat)
  /-- The pairs of the elements of two sequences. -/
  | zip (left : Pipe) (first : Supply D) (right : Pipe) (second : Supply D)

namespace Supply

variable {D : Type}

/-- The supply after its next raw element. -/
def drop : Supply D → Supply D
  | .raw r k => .raw r (k + 1)
  | .take P u n => .take P u.drop (n - 1)
  | .zip P u Q v => .zip P u.drop Q v.drop

/-- The supply after its next raw element has been looked at or consumed. -/
def after (u : Supply D) : (peek : Bool) → Supply D
  | true => u
  | false => u.drop

/-- How deeply supplies are nested in each other. -/
def height : Supply D → Nat
  | .raw _ _ => 1
  | .take _ u _ => u.height + 1
  | .zip _ u _ v => max u.height v.height + 1

/-- How many elements of the streams at the bottom have been consumed. -/
def moved : Supply D → Nat
  | .raw _ k => k
  | .take _ u _ => u.moved
  | .zip _ u _ v => u.moved + v.moved

/-- A supply that drops an element is nested as deeply as before. -/
@[simp] theorem height_drop (u : Supply D) : u.drop.height = u.height := by
  induction u with
  | raw r k => rfl
  | take P u n ih => simp only [drop, height, ih]
  | zip P u Q v ihu ihv => simp only [drop, height, ihu, ihv]

/-- And has moved. -/
theorem moved_lt_drop (u : Supply D) : u.moved < u.drop.moved := by
  induction u with
  | raw r k => simp only [drop, moved, Nat.lt_succ_self]
  | take P u n ih => exact ih
  | zip P u Q v ihu ihv => simp only [drop, moved]; omega

/-- Every supply has a height. -/
theorem height_pos (u : Supply D) : 0 < u.height := by
  cases u <;> simp [height]

/-- How much has been consumed from a supply: the place in the stream, or what a limit has less. -/
def Counted (r : Nat → Except Interruption (Option D)) (limit n : Nat) : Supply D → Prop
  | .raw r' k => r' = r ∧ k = n
  | .take _ _ m => m + n = limit
  | .zip _ _ _ _ => True

end Supply

/-- An answer that is no element: the end, or an interruption. -/
def IsStop {D : Type} (a : Except Interruption (Option D)) : Prop := ∀ x, a ≠ .ok (some x)

/-- The end stops a search. -/
theorem isStop_none {D : Type} : IsStop (.ok none : Except Interruption (Option D)) :=
  fun _ h => nomatch h

/-- So does an error. -/
theorem isStop_error {D : Type} (e : Interruption) :
    IsStop (.error e : Except Interruption (Option D)) := fun _ h => nomatch h

section Looking

variable {own : SourceId → Prop} {D : Type} (R : Reading own D)

mutual

/-- A look at the next raw element of a supply, with its answer and the supply after it. -/
inductive Looks : Supply D → Except Interruption (Option D) → Supply D → Prop
  | raw {r : Nat → Except Interruption (Option D)} {k : Nat} {a : Except Interruption (Option D)} :
    r k = a → Looks (.raw r k) a (.raw r k)
  /-- A sequence from which nothing more is taken is not looked at. -/
  | taken {P : Pipe} {u : Supply D} : Looks (.take P u 0) (.ok none) (.take P u 0)
  | take {P : Pipe} {u w : Supply D} {n : Nat} {a : Except Interruption (Option D)} :
    Seeks P u a w → Looks (.take P u (n + 1)) a (.take P w (n + 1))
  /-- The right side is not looked at if the left one has no element. -/
  | left {P Q : Pipe} {u w v : Supply D} {a : Except Interruption (Option D)} :
    Seeks P u a w → IsStop a → Looks (.zip P u Q v) a (.zip P w Q v)
  | right {P Q : Pipe} {u w v z : Supply D} {x : D} {a : Except Interruption (Option D)} :
    Seeks P u (.ok (some x)) w → Seeks Q v a z → IsStop a →
    Looks (.zip P u Q v) a (.zip P w Q z)
  | both {P Q : Pipe} {u w v z : Supply D} {x y : D} :
    Seeks P u (.ok (some x)) w → Seeks Q v (.ok (some y)) z →
    Looks (.zip P u Q v) (.ok (some (R.pair x y))) (.zip P w Q z)

/-- A look at the next element of a sequence over a supply. -/
inductive Seeks : Pipe → Supply D → Except Interruption (Option D) → Supply D → Prop
  | stop {P : Pipe} {u w : Supply D} {a : Except Interruption (Option D)} :
    Looks u a w → IsStop a → Seeks P u a w
  | found {P : Pipe} {u w : Supply D} {x : D} {a : Except Interruption (Option D)} :
    Looks u (.ok (some x)) w → R.through P x = a → a ≠ .ok none → Seeks P u a w
  | reject {P : Pipe} {u w z : Supply D} {x : D} {a : Except Interruption (Option D)} :
    Looks u (.ok (some x)) w → R.through P x = .ok none → Seeks P w.drop a z → Seeks P u a z

end

variable {R}

mutual

/-- Looking comes to one answer. -/
theorem Looks.unique {u w w' : Supply D} {a a' : Except Interruption (Option D)} :
    Looks R u a w → Looks R u a' w' → a = a' ∧ w = w'
  | .raw e, .raw e' => ⟨e.symm.trans e', rfl⟩
  | .taken, .taken => ⟨rfl, rfl⟩
  | .take h, .take h' => by
    obtain ⟨rfl, rfl⟩ := h.unique h'
    exact ⟨rfl, rfl⟩
  | .left h _, .left h' _ => by
    obtain ⟨rfl, rfl⟩ := h.unique h'
    exact ⟨rfl, rfl⟩
  | .left h stop, .right h' _ _ | .left h stop, .both h' _ => absurd (h.unique h').1 (stop _)
  | .right h _ _, .left h' stop | .both h _, .left h' stop => absurd (h.unique h').1.symm (stop _)
  | .right h g _, .right h' g' _ => by
    obtain ⟨-, rfl⟩ := h.unique h'
    obtain ⟨rfl, rfl⟩ := g.unique g'
    exact ⟨rfl, rfl⟩
  | .right _ g stop, .both _ g' => absurd (g.unique g').1 (stop _)
  | .both _ g, .right _ g' stop => absurd (g.unique g').1.symm (stop _)
  | .both h g, .both h' g' => by
    obtain ⟨hx, rfl⟩ := h.unique h'
    obtain ⟨hy, rfl⟩ := g.unique g'
    cases hx
    cases hy
    exact ⟨rfl, rfl⟩

/-- So does seeking. -/
theorem Seeks.unique {P : Pipe} {u w w' : Supply D} {a a' : Except Interruption (Option D)} :
    Seeks R P u a w → Seeks R P u a' w' → a = a' ∧ w = w'
  | .stop h _, .stop h' _ => h.unique h'
  | .stop h stop, .found h' _ _ | .stop h stop, .reject h' _ _ =>
    absurd (h.unique h').1 (stop _)
  | .found h _ _, .stop h' stop | .reject h _ _, .stop h' stop =>
    absurd (h.unique h').1.symm (stop _)
  | .found h e _, .found h' e' _ => by
    obtain ⟨hx, rfl⟩ := h.unique h'
    cases hx
    exact ⟨e.symm.trans e', rfl⟩
  | .found h e ne, .reject h' e' _ => by
    obtain ⟨hx, -⟩ := h.unique h'
    cases hx
    exact absurd (e.symm.trans e') ne
  | .reject h e _, .found h' e' ne => by
    obtain ⟨hx, -⟩ := h.unique h'
    cases hx
    exact absurd (e'.symm.trans e) ne
  | .reject h _ g, .reject h' _ g' => by
    obtain ⟨-, rfl⟩ := h.unique h'
    exact g.unique g'

end

mutual

/-- A second look answers the same and moves nothing. -/
theorem Looks.again {u w : Supply D} {a : Except Interruption (Option D)} :
    Looks R u a w → Looks R w a w
  | .raw e => .raw e
  | .taken => .taken
  | .take h => .take h.again
  | .left h stop => .left h.again stop
  | .right h g stop => .right h.again g.again stop
  | .both h g => .both h.again g.again

/-- A search that is made again comes to the same answer at once. -/
theorem Seeks.again {P : Pipe} {u w : Supply D} {a : Except Interruption (Option D)} :
    Seeks R P u a w → Seeks R P w a w
  | .stop h stop => .stop h.again stop
  | .found h e ne => .found h.again e ne
  | .reject _ _ g => g.again

end

mutual

/-- Looking leaves the nesting as it is. -/
theorem Looks.height_eq {u w : Supply D} {a : Except Interruption (Option D)} :
    Looks R u a w → w.height = u.height
  | .raw _ | .taken => rfl
  | .take h => by simp only [Supply.height, h.height_eq]
  | .left h _ => by simp only [Supply.height, h.height_eq]
  | .right h g _ => by simp only [Supply.height, h.height_eq, g.height_eq]
  | .both h g => by simp only [Supply.height, h.height_eq, g.height_eq]

/-- So does seeking. -/
theorem Seeks.height_eq {P : Pipe} {u w : Supply D} {a : Except Interruption (Option D)} :
    Seeks R P u a w → w.height = u.height
  | .stop h _ => h.height_eq
  | .found h _ _ => h.height_eq
  | .reject h _ g => by rw [g.height_eq, Supply.height_drop, h.height_eq]

end

/-- A look consumes nothing from the supply itself. -/
theorem Looks.counted {u w : Supply D} {a : Except Interruption (Option D)}
    {r : Nat → Except Interruption (Option D)} {limit n : Nat} (h : Looks R u a w)
    (counted : Supply.Counted r limit n u) : Supply.Counted r limit n w := by
  cases h with
  | raw | taken | take => exact counted
  | left | right | both => trivial

/-- An element that there is can be consumed. -/
theorem Looks.counted_drop {u w : Supply D} {x : D} {r : Nat → Except Interruption (Option D)}
    {limit n : Nat} (h : Looks R u (.ok (some x)) w) (counted : Supply.Counted r limit n u) :
    Supply.Counted r limit (n + 1) w.drop := by
  cases h with
  | raw => exact ⟨counted.1, congrArg (· + 1) counted.2⟩
  | @take P u w m hseek =>
    have hcount : m + 1 + n = limit := counted
    show m + (n + 1) = limit
    omega
  | left hseek stop | right _ hseek stop => exact absurd rfl (stop x)
  | both => trivial

mutual

/-- Looking does not go back. -/
theorem Looks.moved_le {u w : Supply D} {a : Except Interruption (Option D)} :
    Looks R u a w → u.moved ≤ w.moved
  | .raw _ | .taken => Nat.le_refl _
  | .take h => h.moved_le
  | .left h _ => Nat.add_le_add_right h.moved_le _
  | .right h g _ => Nat.add_le_add h.moved_le g.moved_le
  | .both h g => Nat.add_le_add h.moved_le g.moved_le

/-- Nor does seeking. -/
theorem Seeks.moved_le {P : Pipe} {u w : Supply D} {a : Except Interruption (Option D)} :
    Seeks R P u a w → u.moved ≤ w.moved
  | .stop h _ => h.moved_le
  | .found h _ _ => h.moved_le
  | .reject (w := w) h _ g =>
    Nat.le_trans h.moved_le (Nat.le_trans (Nat.le_of_lt w.moved_lt_drop) g.moved_le)

end

/-- After an element that is rejected, the search goes on. -/
theorem Seeks.rest {P : Pipe} {u w z : Supply D} {x : D} {a : Except Interruption (Option D)}
    (h : Seeks R P u a z) (hlook : Looks R u (.ok (some x)) w) (hx : R.through P x = .ok none) :
    Seeks R P w.drop a z := by
  cases h with
  | stop h stop => exact absurd (h.unique hlook).1 (stop x)
  | found h e ne =>
    obtain ⟨hxy, -⟩ := h.unique hlook
    cases hxy
    exact absurd (e.symm.trans hx) ne
  | reject h _ g =>
    obtain ⟨-, rfl⟩ := h.unique hlook
    exact g

/-- What a sequence finds begins with what its source has. -/
theorem Seeks.first {P : Pipe} {u w : Supply D} {a : Except Interruption (Option D)}
    (h : Seeks R P u a w) : ∃ a' w', Looks R u a' w' ∧ w'.moved ≤ w.moved := by
  cases h with
  | stop h _ => exact ⟨_, _, h, Nat.le_refl _⟩
  | found h _ _ => exact ⟨_, _, h, Nat.le_refl _⟩
  | @reject _ _ w' _ _ _ h _ g =>
    exact ⟨_, _, h, Nat.le_trans (Nat.le_of_lt w'.moved_lt_drop) g.moved_le⟩

/-- What a sequence finds in place lies there as a raw element. -/
theorem Seeks.looks {P : Pipe} {u : Supply D} {d : D} (h : Seeks R P u (.ok (some d)) u) :
    ∃ x, Looks R u (.ok (some x)) u := by
  cases h with
  | stop _ stop => exact absurd rfl (stop d)
  | found h _ _ => exact ⟨_, h⟩
  | reject h _ g =>
    have := g.moved_le
    have := h.moved_le
    have := Supply.moved_lt_drop ‹Supply D›
    omega

end Looking

end Abacus
