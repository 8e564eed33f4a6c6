import Abacus.Proofs.Sequence.Datum
import Abacus.Proofs.Sequence.Forest
import Mathlib.Data.List.ReduceOption

/-!
# What becomes of the elements of a stream

Sequences that are made from one stream by `map`, `filter` and `take` all draw on one source, and
each takes from one sequence at most. Whatever is consumed from that source was either rejected on
its way by a filter or is what a `next` delivers.

**The law** (`Setting.Chained.exactly_once`): as long as no request overtakes an element that another
sequence holds, every element that is consumed is delivered by exactly one `next`, or was rejected. An
element that is overtaken is delivered although it was consumed before.
-/

namespace Abacus

/-! ## Supplies over one stream -/

section Over

variable {own : SourceId → Prop} {D : Type} {R : Reading own D}
  {r : Nat → Except Interruption (Option D)}

/-- What a pipe makes of an element, if there is one. -/
def Reading.onward (R : Reading own D) (P : Pipe) : Option D → Except Interruption (Option D)
  | some x => R.through P x
  | none => .ok none

namespace Supply

/-- All elements of a supply come from one stream, at a place. -/
def Over (r : Nat → Except Interruption (Option D)) (k : Nat) : Supply D → Prop
  | .raw r' k' => r' = r ∧ k' = k
  | .take _ u _ => u.Over r k
  | .zip _ _ _ _ => False

/-- What the sequences that a supply takes from make of an element of the stream. -/
def make (R : Reading own D) : Supply D → D → Except Interruption (Option D)
  | .raw _ _ => fun x => .ok (some x)
  | .take P u _ => fun x => u.make R x >>= R.onward P
  | .zip _ _ _ _ => fun _ => .ok none

/-- A supply that drops an element is over the stream one place further on. -/
theorem Over.drop {k : Nat} {u : Supply D} (h : u.Over r k) : u.drop.Over r (k + 1) := by
  induction u with
  | raw r' k' => exact ⟨h.1, congrArg (· + 1) h.2⟩
  | take P u n ih => exact ih h
  | zip P u Q v => exact h

/-- How far it has moved is where it is over the stream. -/
theorem Over.moved_eq {k : Nat} {u : Supply D} (h : u.Over r k) : u.moved = k := by
  induction u with
  | raw r' k' => exact h.2
  | take P u n ih => exact ih h
  | zip P u Q v => exact h.elim

@[simp] theorem make_drop (u : Supply D) : u.drop.make R = u.make R := by
  induction u with
  | raw r' k' => rfl
  | take P u n ih => simp only [drop, make, ih]
  | zip P u Q v => rfl

end Supply

mutual

/-- To look changes nothing about what is made of an element. -/
theorem Looks.make_eq {u w : Supply D} {a : Except Interruption (Option D)} :
    Looks R u a w → w.make R = u.make R
  | .raw _ | .taken | .left _ _ | .right _ _ _ | .both _ _ => rfl
  | .take h => by simp only [Supply.make, h.make_eq]

/-- Nor does seeking. -/
theorem Seeks.make_eq {P : Pipe} {u w : Supply D} {a : Except Interruption (Option D)} :
    Seeks R P u a w → w.make R = u.make R
  | .stop h _ | .found h _ _ => h.make_eq
  | .reject h _ g => by rw [g.make_eq, Supply.make_drop, h.make_eq]

end

/-- Between two places of the stream, all elements are rejected. -/
def Rejected (r : Nat → Except Interruption (Option D)) (make : D → Except Interruption (Option D))
    (k j : Nat) : Prop :=
  k ≤ j ∧ ∀ i, k ≤ i → i < j → ∃ x, r i = .ok (some x) ∧ make x = .ok none

/-- An answer shows what is made of the element of the stream at a place, if it shows any. -/
def Made (r : Nat → Except Interruption (Option D)) (make : D → Except Interruption (Option D))
    (j : Nat) (a : Except Interruption (Option D)) : Prop :=
  ∀ y, a = .ok (some y) → ∃ x, r j = .ok (some x) ∧ make x = .ok (some y)

section Rejected

variable {make make' : D → Except Interruption (Option D)} {k j l : Nat}

/-- Between a place and itself nothing is rejected. -/
theorem Rejected.refl (make : D → Except Interruption (Option D)) (k : Nat) :
    Rejected r make k k := ⟨Nat.le_refl _, fun _ h h' => absurd h' (Nat.not_lt.mpr h)⟩

/-- What is rejected up to a place and from there on. -/
theorem Rejected.trans (h : Rejected r make k j) (h' : Rejected r make j l) :
    Rejected r make k l := by
  refine ⟨Nat.le_trans h.1 h'.1, fun i hi hl => ?_⟩
  by_cases hj : i < j
  · exact h.2 i hi hj
  · exact h'.2 i (Nat.le_of_not_lt hj) hl

/-- An element of which nothing is made is rejected. -/
theorem Rejected.one {x : D} (hk : r k = .ok (some x)) (hx : make x = .ok none) :
    Rejected r make k (k + 1) := by
  refine ⟨Nat.le_succ k, fun i hi hlt => ?_⟩
  obtain rfl : i = k := by omega
  exact ⟨x, hk, hx⟩

/-- What has been rejected on the way to a sequence, the sequence does not have. -/
theorem Rejected.onward (h : Rejected r make k j) (P : Pipe) :
    Rejected r (fun x => make x >>= R.onward P) k j := by
  refine ⟨h.1, fun i hi hj => ?_⟩
  obtain ⟨x, hx, hmake⟩ := h.2 i hi hj
  exact ⟨x, hx, by simp only [hmake]; rfl⟩

/-- An answer that stops shows nothing. -/
theorem Made.of_stop {a : Except Interruption (Option D)} (stop : IsStop a) : Made r make j a :=
  fun y hy => absurd hy (stop y)

end Rejected

mutual

/-- A look passes over elements that are rejected, and what it finds is made of the one after them. -/
theorem Looks.passes {u w : Supply D} {a : Except Interruption (Option D)} {k : Nat} :
    Looks R u a w → u.Over r k →
      ∃ j, w.Over r j ∧ Rejected r (u.make R) k j ∧ Made r (u.make R) j a
  | .raw e, placed => by
    obtain ⟨rfl, rfl⟩ := placed
    refine ⟨_, ⟨rfl, rfl⟩, .refl _ _, fun y hy => ⟨y, e.trans hy, rfl⟩⟩
  | .taken, placed => ⟨k, placed, .refl _ _, .of_stop isStop_none⟩
  | .take h, placed => h.passes placed
  | .left _ _, placed | .right _ _ _, placed | .both _ _, placed => placed.elim

/-- Seeking passes over rejected elements and stops at the first of which something is made. -/
theorem Seeks.passes {P : Pipe} {u w : Supply D} {a : Except Interruption (Option D)} {k : Nat} :
    Seeks R P u a w → u.Over r k →
      ∃ j, w.Over r j ∧ Rejected r (fun x => u.make R x >>= R.onward P) k j ∧
        Made r (fun x => u.make R x >>= R.onward P) j a
  | .stop h stop, placed => by
    obtain ⟨j, placed', rejected, -⟩ := h.passes placed
    exact ⟨j, placed', rejected.onward P, .of_stop stop⟩
  | .found h hx _, placed => by
    obtain ⟨j, placed', rejected, made⟩ := h.passes placed
    refine ⟨j, placed', rejected.onward P, fun y hy => ?_⟩
    obtain ⟨x, hj, hmake⟩ := made _ rfl
    exact ⟨x, hj, by simp only [hmake]; exact hx.trans hy⟩
  | .reject h hx g, placed => by
    obtain ⟨j, placed', rejected, made⟩ := h.passes placed
    obtain ⟨l, placed'', rejected', made'⟩ := g.passes placed'.drop
    rw [Supply.make_drop, h.make_eq] at rejected' made'
    obtain ⟨x, hj, hmake⟩ := made _ rfl
    have here : Rejected r (fun x => u.make R x >>= R.onward P) j (j + 1) :=
      .one hj (by simp only [hmake]; exact hx)
    exact ⟨l, placed'', ((rejected.onward P).trans here).trans rejected', made'⟩

end

mutual

/-- A look that consumes nothing leaves the supply as it was. -/
theorem Looks.eq_of_moved {u w : Supply D} {a : Except Interruption (Option D)} :
    Looks R u a w → w.moved = u.moved → w = u
  | .raw _, _ | .taken, _ => rfl
  | .take h, e => by rw [h.eq_of_moved e]
  | .left h _, e => by rw [h.eq_of_moved (Nat.add_right_cancel e)]
  | .right h g _, e | .both h g, e => by
    have := h.moved_le
    have := g.moved_le
    simp only [Supply.moved] at e
    rw [h.eq_of_moved (by omega), g.eq_of_moved (by omega)]

/-- A supply that has not moved has not changed. -/
theorem Seeks.eq_of_moved {P : Pipe} {u w : Supply D} {a : Except Interruption (Option D)} :
    Seeks R P u a w → w.moved = u.moved → w = u
  | .stop h _, e | .found h _ _, e => h.eq_of_moved e
  | .reject (w := v) h _ g, e => by
    have := h.moved_le
    have := v.moved_lt_drop
    have := g.moved_le
    omega

end

/-- The request and its answer deliver an element. -/
def Delivering {α : Type} (request : Request) (answer : Except Interruption (Reply α)) (x : α) :
    Prop := ∃ q p, request = .next q p ∧ answer = .ok (.element x)

/-- What becomes of the elements of the stream when a request is answered: those before the last one
were rejected, and the last one is delivered or stays in place. -/
inductive Passes (r : Nat → Except Interruption (Option D)) (make : D → Except Interruption (Option D))
    (request : Request) (answer : Except Interruption (Reply D)) (k : Nat) : Nat → Prop
  | delivered {j : Nat} {x y : D} : Rejected r make k j → r j = .ok (some x) →
    make x = .ok (some y) → Delivering request answer y → Passes r make request answer k (j + 1)
  | kept {j : Nat} : Rejected r make k j → (∀ y, ¬ Delivering request answer y) →
    Passes r make request answer k j

/-- A request does not go back. -/
theorem Passes.le {make : D → Except Interruption (Option D)} {request : Request}
    {answer : Except Interruption (Reply D)} {k j : Nat} (h : Passes r make request answer k j) :
    k ≤ j := by
  cases h with
  | delivered rejected => exact Nat.le_succ_of_le rejected.1
  | kept rejected => exact rejected.1

/-- A request passes over elements that are rejected, and consumes no other than the one that it
delivers. -/
theorem Answers.passes {P : Pipe} {request : Request} {u w : Supply D}
    {a : Except Interruption (Reply D)} {k : Nat} (h : Answers R P request u a w)
    (placed : u.Over r k) (hskip : ∀ q n, request ≠ .skip q n) :
    ∃ j, w.Over r j ∧ Passes r (fun x => u.make R x >>= R.onward P) request a k j := by
  cases h with
  | next hseek =>
    obtain ⟨j, placed', rejected, made⟩ := hseek.passes placed
    obtain ⟨x, hj, hmake⟩ := made _ rfl
    exact ⟨j + 1, placed'.drop, .delivered rejected hj hmake ⟨_, _, rfl, rfl⟩⟩
  | next_exhausted hseek | next_error hseek =>
    obtain ⟨j, placed', rejected, -⟩ := hseek.passes placed
    refine ⟨j, placed', .kept rejected ?_⟩
    rintro y ⟨_, _, -, hanswer⟩
    cases hanswer
  | peek hseek | peek_exhausted hseek | peek_error hseek | atEnd hseek | atEnd_error hseek =>
    obtain ⟨j, placed', rejected, -⟩ := hseek.passes placed
    refine ⟨j, placed', .kept rejected ?_⟩
    rintro y ⟨_, _, hrequest, -⟩
    cases hrequest
  | skip | skip_error => exact absurd rfl (hskip _ _)

/-- A request that consumes nothing leaves the supply as it was. -/
theorem Answers.eq_of_moved {P : Pipe} {request : Request} {u w : Supply D}
    {a : Except Interruption (Reply D)} (h : Answers R P request u a w)
    (hskip : ∀ q n, request ≠ .skip q n) (same : w.moved = u.moved) : w = u := by
  cases h with
  | @next _ _ _ w _ hseek =>
    have := hseek.moved_le
    have := w.moved_lt_drop
    omega
  | next_exhausted hseek | next_error hseek | peek hseek | peek_exhausted hseek | peek_error hseek
  | atEnd hseek | atEnd_error hseek => exact hseek.eq_of_moved same
  | skip | skip_error => exact absurd rfl (hskip _ _)

end Over

namespace Setting

variable {D : Type} {E : Setting D}

/-! ## Sequences that draw on one source -/

/-- What a sequence makes of an element of the source `b`: what its transformers make of the element,
or of what the sequence makes of it that it takes from. -/
inductive Makes (E : Setting D) (b : SourceId) :
    SequenceId → D → Except Interruption (Option D) → Prop
  | base {q : SequenceId} {x : D} : (E.start.sequence q).source = b →
    Makes E b q x (E.reading.through (E.pipe q) x)
  | take {q q' : SequenceId} {x : D} {a : Except Interruption (Option D)} :
    (E.start.source (E.start.sequence q).source).generator.references = [q'] → Makes E b q' x a →
    Makes E b q x (a >>= E.reading.onward (E.pipe q))

/-- All sequences draw on the source `b`, from which nothing has been consumed, and none takes from
two sequences. -/
structure Chained (E : Setting D) (b : SourceId) : Prop where
  forest : E.Forest E.start
  draws : ∀ {q}, E.watched q → E.start.Draws (E.start.sequence q).source b
  base : (E.start.source b).generator.references = []
  unread : (E.start.source b).advanced = 0
  single : ∀ {id}, E.own id → (E.start.source id).generator.references.length ≤ 1

section Chained

variable {b : SourceId} {s s' : Store}

mutual

/-- A supply without zips is over the stream of the one source below it, at the place that the
source has come to. -/
theorem Supplies.placed
    (single : ∀ {id}, E.own id → (E.start.source id).generator.references.length ≤ 1) {g : Generator} {u : Supply D} {W : List SourceId} :
    E.Supplies s g u W → g.references.length ≤ 1 →
      (∀ id ∈ W, (s.source id).generator.references = (E.start.source id).generator.references) →
      (s.source b).generator.references = [] → b ∈ W → u.Over (E.stream b) (s.source b).advanced
  | .raw _, _, _, _, hb => nomatch hb
  | .take _ h, _, same, hbase, hb => h.placed single same hbase hb
  | .zip _ _ _ _ _, hlength, _, _, _ => absurd hlength (Nat.not_succ_le_self 1)

/-- A tree that draws on one source has the stream of that source. -/
theorem Stands.placed
    (single : ∀ {id}, E.own id → (E.start.source id).generator.references.length ≤ 1) {id : SourceId} {u : Supply D} {W : List SourceId} :
    E.Stands s id u W →
      (∀ id ∈ W, (s.source id).generator.references = (E.start.source id).generator.references) →
      (s.source b).generator.references = [] → b ∈ W → u.Over (E.stream b) (s.source b).advanced
  | .mk _ hown _ counted h _ _, same, hbase, hb => by
    obtain rfl | hb := List.mem_cons.mp hb
    · generalize (s.source b).generator = g at h hbase
      cases h with
      | raw => exact counted
      | take | zip => cases hbase
    · refine h.placed single ?_ (fun id' hid' => same id' (List.mem_cons_of_mem _ hid')) hbase hb
      rw [same id List.mem_cons_self]
      exact single hown

end

mutual

/-- And what it makes of an element is what the functions on the way make of it. -/
theorem Supplies.makes (kept : E.start.Keeps E.own s)
    (single : ∀ {id}, E.own id → (E.start.source id).generator.references.length ≤ 1) {g : Generator}
    {u : Supply D} {W : List SourceId} :
    E.Supplies s g u W → g.references.length ≤ 1 →
      (∀ id ∈ W, (s.source id).generator.references = (E.start.source id).generator.references) →
      (s.source b).generator.references = [] → b ∈ W →
      ∃ q, g.references = [q] ∧ ∀ x, E.Makes b q x (u.make E.reading x)
  | .raw _, _, _, _, hb => nomatch hb
  | .take (q := q) hq h, _, same, hbase, hb => by
    have hlt := E.exists_of_watched hq
    refine ⟨q, rfl, fun x => ?_⟩
    show E.Makes b q x (_ >>= E.reading.onward (s.sequence q).pipe)
    rw [pipe_eq kept hlt]
    exact h.makes kept single same hbase hb (kept.source_eq hlt).symm x
  | .zip _ _ _ _ _, hlength, _, _, _ => absurd hlength (Nat.not_succ_le_self 1)

/-- A sequence over a tree makes of an element what the supply of the tree and its own transformers
make of it. -/
theorem Stands.makes (kept : E.start.Keeps E.own s)
    (single : ∀ {id}, E.own id → (E.start.source id).generator.references.length ≤ 1) {id : SourceId}
    {u : Supply D} {W : List SourceId} :
    E.Stands s id u W →
      (∀ id ∈ W, (s.source id).generator.references = (E.start.source id).generator.references) →
      (s.source b).generator.references = [] → b ∈ W → ∀ {q}, (E.start.sequence q).source = id →
      ∀ x, E.Makes b q x (u.make E.reading x >>= E.reading.onward (E.pipe q))
  | .mk _ hown _ _ h _ _, same, hbase, hb, q, hq, x => by
    obtain rfl | hb := List.mem_cons.mp hb
    · generalize (s.source b).generator = g at h hbase
      cases h with
      | raw => exact .base hq
      | take | zip => cases hbase
    · have hsame := same id List.mem_cons_self
      obtain ⟨q', hreferences, hmakes⟩ := h.makes kept single (by rw [hsame]; exact single hown)
        (fun id' hid' => same id' (List.mem_cons_of_mem _ hid')) hbase hb
      rw [hsame, ← hq] at hreferences
      exact .take hreferences (hmakes x)

end

mutual

/-- Where a supply is as before, no source of it has moved. -/
theorem Supplies.advanced_eq {own : SourceId → Prop} (start : E.start.Keeps E.own s)
    (kept : s.Keeps own s') {g g' : Generator} {u u' : Supply D} {W W' : List SourceId}
    (hg : g'.references = g.references) (hu : u' = u) (h' : E.Supplies s' g' u' W') :
    E.Supplies s g u W → (∀ id ∈ W, (s.source id).generator.references.length ≤ 1) →
      ∀ id ∈ W, (s'.source id).advanced = (s.source id).advanced
  | .raw _, _, id, hid => nomatch hid
  | .take (q := q) hq h, single, id, hid => by
    cases h' with
    | raw | zip => cases hu
    | take _ h' =>
      cases hg
      injection hu with _ hu
      rw [hu, kept.source_eq (exists_of_kept start hq)] at h'
      exact Stands.advanced_eq start kept h' h single id hid
  | .zip (l := l) (r := r) hl hr h₁ h₂ _, single, id, hid => by
    cases h' with
    | raw | take => cases hu
    | zip _ _ h₁' h₂' _ =>
      cases hg
      injection hu with _ hu _ hv
      rw [hu, kept.source_eq (exists_of_kept start hl)] at h₁'
      rw [hv, kept.source_eq (exists_of_kept start hr)] at h₂'
      obtain hid | hid := List.mem_append.mp hid
      · exact Stands.advanced_eq start kept h₁' h₁
          (fun id hid => single id (List.mem_append_left _ hid)) id hid
      · exact Stands.advanced_eq start kept h₂' h₂
          (fun id hid => single id (List.mem_append_right _ hid)) id hid

/-- A tree that has the same supply as before has consumed nothing from its sources. -/
theorem Stands.advanced_eq {own : SourceId → Prop} (start : E.start.Keeps E.own s)
    (kept : s.Keeps own s') {id : SourceId} {u : Supply D} {W W' : List SourceId}
    (h' : E.Stands s' id u W') :
    E.Stands s id u W → (∀ id ∈ W, (s.source id).generator.references.length ≤ 1) →
      ∀ id ∈ W, (s'.source id).advanced = (s.source id).advanced
  | .mk hlt _ _ counted h _ _, single, id', hid => by
    cases h' with
    | mk _ _ _ counted' h' _ _ =>
      obtain rfl | hid := List.mem_cons.mp hid
      · have hlength := single id' List.mem_cons_self
        generalize (s.source id').generator = g at h hlength
        cases h with
        | raw => exact counted'.2.symm.trans counted.2
        | take => exact Nat.add_left_cancel (counted'.trans counted.symm)
        | zip => exact absurd hlength (Nat.not_succ_le_self 1)
      · exact Supplies.advanced_eq start kept (kept.references hlt) rfl h' h
          (fun id hid => single id (List.mem_cons_of_mem _ hid)) id' hid

end

/-- What is known of the tree of a sequence in a state that is reached. -/
structure Chain (E : Setting D) (b : SourceId) (s : Store) (q : SequenceId) (u : Supply D)
    (W : List SourceId) : Prop where
  stands : E.Stands s (s.sequence q).source u W
  mem : b ∈ W
  references : ∀ id ∈ W,
    (s.source id).generator.references = (E.start.source id).generator.references
  placed : u.Over (E.stream b) (s.source b).advanced
  makes : ∀ x, E.Makes b q x (u.make E.reading x >>= E.reading.onward (E.pipe q))

/-- **Every sequence has the stream of the one source**, wherever it stands. -/
theorem Stands.chain (chained : E.Chained b) (kept : E.start.Keeps E.own s) {q : SequenceId}
    (hq : E.watched q) {u : Supply D} {W : List SourceId}
    (h : E.Stands s (s.sequence q).source u W) : E.Chain b s q u W := by
  obtain ⟨u₀, W₀, h₀⟩ := chained.forest.stands hq
  have hsource := kept.source_eq (E.exists_of_watched hq)
  have hlist : W = W₀ := by
    rw [hsource] at h
    exact Stands.list_eq (.refl _ _) kept h h₀
  subst hlist
  have hb := h₀.mem_iff.mpr (chained.draws hq)
  have same : ∀ id ∈ W,
      (s.source id).generator.references = (E.start.source id).generator.references := by
    intro id hid
    obtain ⟨_, _, hsub⟩ := h₀.sub id hid
    exact kept.references hsub.lt
  have hbase : (s.source b).generator.references = [] := (same b hb).trans chained.base
  exact ⟨h, hb, same, h.placed chained.single same hbase hb,
    h.makes kept chained.single same hbase hb hsource.symm⟩

/-- A watched sequence is reached from the source by a chain of sequences. -/
theorem Chained.chain (chained : E.Chained b) (forest : E.Forest s) {q : SequenceId}
    (hq : E.watched q) : ∃ u W, E.Chain b s q u W := by
  obtain ⟨u, W, h⟩ := forest.stands hq
  exact ⟨u, W, h.chain chained forest.kept hq⟩

/-- What is known of a tree is known of it after a read. -/
theorem Left.chain (chained : E.Chained b) (kept : E.start.Keeps E.own s) {q : SequenceId}
    (hq : E.watched q) {w : Supply D} {W : List SourceId}
    (left : E.Left s (s.sequence q).source w W s') : E.Chain b s' q w W := by
  refine Stands.chain chained (left.kept kept) hq ?_
  rw [left.keeps.source_eq (exists_of_kept kept hq)]
  exact left.stands

/-! ## One request -/

/-- A request to a sequence overtakes what another sequence holds: it consumes from the source `b`,
but does not read the source that the other sequence is over. -/
structure Overtakes (E : Setting D) (b : SourceId) (q : SequenceId) (s s' : Store)
    (other : SequenceId) (v : Value) : Prop where
  watched : E.watched other
  apart : ¬ s.Draws (s.sequence q).source (s.sequence other).source
  holds : s.Holds other v
  consumed : (s'.source b).advanced ≠ (s.source b).advanced

section Request

variable {request : Request} {reply : Except Interruption (Reply Value)} {budget : Nat}

/-- A request that overtakes nothing is quiet. -/
theorem Chain.quiet (chained : E.Chained b) (forest : E.Forest s) {u w : Supply D}
    {W : List SourceId} (chain : E.Chain b s request.sequence u W) (hq : E.watched request.sequence)
    (hskip : ∀ q n, request ≠ .skip q n) {answer : Except Interruption (Reply D)}
    (hanswer : Answers E.reading (s.sequence request.sequence).pipe request u answer w)
    (left : E.Left s (s.sequence request.sequence).source w W s')
    (orderly : ∀ q v, ¬ E.Overtakes b request.sequence s s' q v) :
    E.Quiet request.sequence s s' := by
  intro q v hother apart holds id hid _
  by_cases consumed : (s'.source b).advanced = (s.source b).advanced
  · have hmoved : w.moved = u.moved := by
      rw [(left.chain chained forest.kept hq).placed.moved_eq, chain.placed.moved_eq, consumed]
    obtain rfl := hanswer.eq_of_moved hskip hmoved
    have single : ∀ id ∈ W, (s.source id).generator.references.length ≤ 1 := by
      intro id hid
      rw [chain.references id hid]
      exact chained.single (chain.stands.own_of_mem id hid)
    exact left.stands.advanced_eq forest.kept left.keeps chain.stands single id
      (chain.stands.mem_iff.mpr hid)
  · exact absurd ⟨hother, apart, holds, consumed⟩ (orderly q v)

/-- An element that is held is made of the element of the stream that is next. -/
theorem Chain.held {q : SequenceId} {u : Supply D} {W : List SourceId} (chain : E.Chain b s q u W)
    (kept : E.start.Keeps E.own s) (hq : E.watched q) {v : Value} (holds : s.Holds q v) :
    ∃ x y, E.stream b (s.source b).advanced = .ok (some x) ∧ E.Makes b q x (.ok (some y)) ∧
      E.reading.means s v y := by
  obtain ⟨y, hseek, hm⟩ := chain.stands.held hq holds
  obtain ⟨j, placed, -, made⟩ := hseek.passes chain.placed
  obtain rfl : j = _ := placed.moved_eq.symm.trans chain.placed.moved_eq
  obtain ⟨x, hx, hmake⟩ := made y rfl
  rw [pipe_eq kept (E.exists_of_watched hq)] at hmake
  exact ⟨x, y, hx, hmake ▸ chain.makes x, hm⟩

/-- **An element that a request overtakes is delivered although it was consumed.** -/
theorem Chained.overtaken (chained : E.Chained b) (forest : E.Forest s)
    (hq : E.watched request.sequence) (returns : request.Returns E.call budget s reply s')
    {other : SequenceId} {v : Value} (overtakes : E.Overtakes b request.sequence s s' other v) :
    (s.source b).advanced < (s'.source b).advanced ∧
      (∃ x y, E.stream b (s.source b).advanced = .ok (some x) ∧
        E.Makes b other x (.ok (some y)) ∧ E.reading.means s' v y) ∧
      ∀ call reader fuel p w s'',
        Sequence.next call reader fuel other p s' = .ok w s'' → w = v := by
  obtain ⟨hother, apart, holds, consumed⟩ := overtakes
  obtain ⟨u, W, chain⟩ := chained.chain forest hq
  obtain ⟨answer, w, hanswer, -, left⟩ := chain.stands.returned forest.kept hq returns
  obtain ⟨u', W', chain'⟩ := chained.chain forest hother
  refine ⟨?_, ?_, fun call reader fuel p z s'' hnext => ?_⟩
  · have := hanswer.moved_le
    rw [(left.chain chained forest.kept hq).placed.moved_eq, chain.placed.moved_eq] at this
    omega
  · obtain ⟨x, y, hx, hmakes, hm⟩ := chain'.held forest.kept hother holds
    exact ⟨x, y, hx, hmakes, E.reading.means_keeps (left.keeps.mono left.stands.own_of_mem) hm⟩
  · have hnot : (s.sequence other).source ∉ W := fun h => apart (chain.stands.mem_iff.mp h)
    exact Sequence.next_of_holds_eq
      (holds.keeps left.keeps (exists_of_kept forest.kept hother) chain'.stands.lt hnot) hnext

end Request

/-! ## Pairs -/

/-- What `next` delivers is made of the last element that it consumes. -/
theorem Chain.next_delivers (chained : E.Chained b) (kept : E.start.Keeps E.own s) {q : SequenceId}
    (hq : E.watched q) {u : Supply D} {W : List SourceId} (chain : E.Chain b s q u W) {n : Nat}
    {p : Position} {v : Value}
    (hnext : Sequence.next E.call (.ofDepth E.call n) n q p s = .ok v s') :
    (∃ w, E.Left s (s.sequence q).source w W s') ∧
      ∃ j x y, (s.source b).advanced ≤ j ∧ (s'.source b).advanced = j + 1 ∧
        E.stream b j = .ok (some x) ∧ E.Makes b q x (.ok (some y)) ∧ E.reading.means s' v y := by
  have returns : (Request.next q p).Returns E.call n s (.ok (.element v)) s' :=
    .value (Action.bind_ok hnext _)
  have stands : E.Stands s (s.sequence (Request.next q p).sequence).source u W := chain.stands
  obtain ⟨answer, w, hanswer, hshows, left⟩ := stands.returned kept hq returns
  obtain ⟨k, placed, passes⟩ := hanswer.passes chain.placed fun _ _ h => nomatch h
  have hk := placed.moved_eq.symm.trans (left.chain chained kept hq).placed.moved_eq
  simp only [Request.sequence, pipe_eq kept (E.exists_of_watched hq)] at passes
  refine ⟨⟨w, left⟩, ?_⟩
  cases hshows with
  | @element _ z hm =>
    cases passes with
    | @delivered j x y rejected hx hmake delivering =>
      obtain ⟨_, _, -, hy⟩ := delivering
      cases hy
      exact ⟨j, x, z, rejected.1, hk.symm, hx, hmake ▸ chain.makes x, hm⟩
    | kept _ hnone => exact absurd ⟨_, _, rfl, rfl⟩ (hnone z)

/-- **A pair of sequences over one source loses an element.** Both elements that are shown are made of
the same element of the stream, and to take the pair consumes two elements that are not rejected. -/
theorem Chained.pair_loses (chained : E.Chained b) (forest : E.Forest s) {l r : SequenceId}
    (hl : E.watched l) (hr : E.watched r) (draws : s.Draws (s.sequence l).source (s.sequence r).source)
    {a c : Value} (ha : s.Holds l a) (hc : s.Holds r c) {n : Nat} {pair : Value}
    (hpair : (Reader.ofDepth E.call n).pair false l r s = .ok pair s') :
    (∃ x y z, E.stream b (s.source b).advanced = .ok (some x) ∧
      E.Makes b l x (.ok (some y)) ∧ E.reading.means s a y ∧
      E.Makes b r x (.ok (some z)) ∧ E.reading.means s c z) ∧
    ∃ i j x x' y z, (s.source b).advanced ≤ i ∧ i < j ∧ j < (s'.source b).advanced ∧
      E.stream b i = .ok (some x) ∧ E.Makes b l x (.ok (some y)) ∧
      E.stream b j = .ok (some x') ∧ E.Makes b r x' (.ok (some z)) := by
  obtain ⟨u, W, first⟩ := chained.chain forest hl
  obtain ⟨v, V, second⟩ := chained.chain forest hr
  constructor
  · obtain ⟨x, y, hx, hy, hm⟩ := first.held forest.kept hl ha
    obtain ⟨x', z, hx', hz, hm'⟩ := second.held forest.kept hr hc
    cases hx.symm.trans hx'
    exact ⟨x, y, z, hx, hy, hm, hz, hm'⟩
  · obtain ⟨a', s₁, hfirst, hpair⟩ := Action.of_bind_ok hpair
    obtain ⟨c', s₂, hsecond, hpair⟩ := Action.of_bind_ok hpair
    cases hpair
    cases n with
    | zero => cases hfirst
    | succ n =>
      obtain ⟨⟨w, left⟩, i, x, y, hi, hplace, hx, hy, -⟩ :=
        first.next_delivers chained forest.kept hl (n := n) hfirst
      -- the second side begins where the first one has left the source
      obtain ⟨v₁, V₁, h₁⟩ := left.stands.sub _ (first.stands.mem_iff.mpr draws)
      rw [← left.keeps.source_eq (exists_of_kept forest.kept hr)] at h₁
      have kept₁ := left.kept forest.kept
      obtain ⟨-, j, x', z, hj, hplace', hx', hz, -⟩ :=
        (h₁.chain chained kept₁ hr).next_delivers chained kept₁ hr (n := n) hsecond
      refine ⟨i, j, x, x', y, z, hi, by omega, ?_, hx, hy, hx', hz⟩
      show j < (s₂.source b).advanced
      omega

/-! ## Runs -/

/-- Requests one after the other, each with what it returns, of which none overtakes anything and none
skips elements; a call that fails does not end the run. -/
inductive OrderlyRun (E : Setting D) (b : SourceId) (budget : Nat) :
    Store → List (Request × Except Interruption (Reply Value)) → Store → Prop
  | nil {s : Store} : OrderlyRun E b budget s [] s
  | cons {s s' s'' : Store} {request : Request} {reply : Except Interruption (Reply Value)}
    {rest : List (Request × Except Interruption (Reply Value))} :
    E.watched request.sequence → (∀ q n, request ≠ .skip q n) →
    request.Returns E.call budget s reply s' →
    (∀ q v, ¬ E.Overtakes b request.sequence s s' q v) → OrderlyRun E b budget s' rest s'' →
    OrderlyRun E b budget s ((request, reply) :: rest) s''

/-- The element of the stream at a place is what a request delivers, if it delivers any. -/
inductive Delivers (E : Setting D) (b : SourceId) (s : Store) :
    Request × Except Interruption (Reply Value) → Option Nat → Prop
  | element {q : SequenceId} {p : Position} {v : Value} {i : Nat} {x y : D} :
    E.stream b i = .ok (some x) → E.Makes b q x (.ok (some y)) → E.reading.means s v y →
    Delivers E b s (.next q p, .ok (.element v)) (some i)
  | nothing {request : Request} {reply : Except Interruption (Reply Value)} :
    (∀ v, ¬ Delivering request reply v) → Delivers E b s (request, reply) none

/-- A request rejects the element of the stream at a place. -/
def Rejects (E : Setting D) (b : SourceId) (i : Nat)
    (entry : Request × Except Interruption (Reply Value)) : Prop :=
  ∃ x, E.stream b i = .ok (some x) ∧ E.Makes b entry.1.sequence x (.ok none)

/-- What has been delivered stays delivered while the store keeps what it had. -/
theorem Delivers.keeps {entry : Request × Except Interruption (Reply Value)} {o : Option Nat}
    (h : E.Delivers b s entry o) (kept : s.Keeps E.own s') : E.Delivers b s' entry o := by
  cases h with
  | element hx hmakes hm => exact .element hx hmakes (E.reading.means_keeps kept hm)
  | nothing h => exact .nothing h

/-- The elements from one place of the stream on up to another are accounted for: they are delivered
in order by the requests, each once, or rejected by one of them. -/
structure Accounts (E : Setting D) (b : SourceId) (s : Store)
    (replies : List (Request × Except Interruption (Reply Value))) (k l : Nat)
    (log : List (Option Nat)) : Prop where
  delivers : List.Forall₂ (E.Delivers b s) replies log
  increasing : log.reduceOption.Pairwise (· < ·)
  between : ∀ i ∈ log.reduceOption, k ≤ i ∧ i < l
  complete : ∀ i, k ≤ i → i < l → i ∈ log.reduceOption ∨ ∃ e ∈ replies, E.Rejects b i e

/-- What one request does with the elements is accounted for before what the others do. -/
theorem Accounts.cons {request : Request} {reply : Except Interruption (Reply Value)}
    {replies : List (Request × Except Interruption (Reply Value))} {k j l : Nat}
    {log : List (Option Nat)} {make : D → Except Interruption (Option D)}
    {answer : Except Interruption (Reply D)}
    (passes : Passes (E.stream b) make request answer k j) (shows' : E.reading.Shows s reply answer)
    (makes : ∀ x, E.Makes b request.sequence x (make x)) (hle : j ≤ l)
    (h : E.Accounts b s replies j l log) :
    ∃ o, E.Accounts b s ((request, reply) :: replies) k l (o :: log) := by
  have rejects : ∀ {i' j'}, Rejected (E.stream b) make i' j' → ∀ i, i' ≤ i → i < j' →
      E.Rejects b i (request, reply) := by
    intro i' j' rejected i hi hj
    obtain ⟨x, hx, hmake⟩ := rejected.2 i hi hj
    exact ⟨x, hx, hmake ▸ makes x⟩
  cases passes with
  | @delivered j x y rejected hx hmake delivering =>
    obtain ⟨q, p, rfl, rfl⟩ := delivering
    cases shows' with
    | element hm =>
      refine ⟨some j, .cons (.element hx (hmake ▸ makes x) hm) h.delivers, ?_, ?_, fun i hi hl => ?_⟩
      · rw [List.reduceOption_cons_of_some, List.pairwise_cons]
        exact ⟨fun i hi => (h.between i hi).1, h.increasing⟩
      · rw [List.reduceOption_cons_of_some]
        intro i hi
        obtain rfl | hi := List.mem_cons.mp hi
        · exact ⟨rejected.1, hle⟩
        · exact ⟨Nat.le_trans rejected.1 (Nat.le_of_succ_le (h.between i hi).1), (h.between i hi).2⟩
      · rw [List.reduceOption_cons_of_some, List.mem_cons]
        rcases Nat.lt_trichotomy i j with hlt | rfl | hgt
        · exact .inr ⟨_, List.mem_cons_self, rejects rejected i hi hlt⟩
        · exact .inl (.inl rfl)
        · obtain hmem | ⟨e, he, hrejects⟩ := h.complete i hgt hl
          · exact .inl (.inr hmem)
          · exact .inr ⟨e, List.mem_cons_of_mem _ he, hrejects⟩
  | kept rejected hnone =>
    have hnone' : ∀ v, ¬ Delivering request reply v := by
      rintro v ⟨q, p, hrequest, rfl⟩
      cases shows' with
      | element => exact hnone _ ⟨q, p, hrequest, rfl⟩
    refine ⟨none, .cons (.nothing hnone') h.delivers, ?_, ?_, fun i hi hl => ?_⟩
    · rw [List.reduceOption_cons_of_none]
      exact h.increasing
    · rw [List.reduceOption_cons_of_none]
      exact fun i hi => ⟨Nat.le_trans rejected.1 (h.between i hi).1, (h.between i hi).2⟩
    · rw [List.reduceOption_cons_of_none]
      by_cases hlt : i < j
      · exact .inr ⟨_, List.mem_cons_self, rejects rejected i hi hlt⟩
      · obtain hmem | ⟨e, he, hrejects⟩ := h.complete i (Nat.le_of_not_lt hlt) hl
        · exact .inl hmem
        · exact .inr ⟨e, List.mem_cons_of_mem _ he, hrejects⟩

/-- Whatever a run of requests that overtake nothing consumes is accounted for. -/
theorem Chained.run {budget : Nat} {replies : List (Request × Except Interruption (Reply Value))}
    (chained : E.Chained b) (forest : E.Forest s) (run : E.OrderlyRun b budget s replies s') :
    E.Forest s' ∧ s.Keeps E.own s' ∧ (s.source b).advanced ≤ (s'.source b).advanced ∧
      ∃ log, E.Accounts b s' replies (s.source b).advanced (s'.source b).advanced log := by
  induction run with
  | nil =>
    refine ⟨forest, .refl _ _, Nat.le_refl _, [], .nil, .nil, ?_, ?_⟩
    · exact fun i hi => absurd hi List.not_mem_nil
    · exact fun i hi hl => absurd hl (Nat.not_lt.mpr hi)
  | @cons s s₁ s₂ request reply rest hq hskip returns orderly _ ih =>
    obtain ⟨u, W, chain⟩ := chained.chain forest hq
    obtain ⟨answer, w, hanswer, hshows, left⟩ := chain.stands.returned forest.kept hq returns
    have quiet : E.Quiet request.sequence s s₁ :=
      chain.quiet chained forest hq hskip hanswer left orderly
    obtain ⟨forest₂, keeps, hle, log, accounts⟩ := ih (forest.step chain.stands left quiet)
    obtain ⟨j, placed, passes⟩ := hanswer.passes chain.placed hskip
    obtain rfl : j = _ :=
      placed.moved_eq.symm.trans (left.chain chained forest.kept hq).placed.moved_eq
    rw [pipe_eq forest.kept (E.exists_of_watched hq)] at passes
    obtain ⟨o, accounts'⟩ := Accounts.cons passes (hshows.keeps keeps) chain.makes hle accounts
    exact ⟨forest₂, (left.keeps.mono left.stands.own_of_mem).trans keeps,
      Nat.le_trans passes.le hle, o :: log, accounts'⟩

/-- **Every element that is consumed is delivered by exactly one `next` or was rejected**, as long as no
request overtakes what another sequence holds and no sequence takes from two. What is overtaken is
delivered although it was consumed before. And where two of the sequences hold an element at the same
time, of which the first draws on the source of the second, both hold what they make of one element: to
look at a pair of them shows that element twice, and to take the pair consumes a second one. -/
theorem Chained.exactly_once {budget : Nat}
    {replies : List (Request × Except Interruption (Reply Value))} (chained : E.Chained b)
    (run : E.OrderlyRun b budget E.start replies s) :
    (∃ log, E.Accounts b s replies 0 (s.source b).advanced log) ∧
    (∀ {request : Request} {reply s' q v}, E.watched request.sequence →
      request.Returns E.call budget s reply s' → E.Overtakes b request.sequence s s' q v →
      (s.source b).advanced < (s'.source b).advanced ∧
        (∃ x y, E.stream b (s.source b).advanced = .ok (some x) ∧
          E.Makes b q x (.ok (some y)) ∧ E.reading.means s' v y) ∧
        ∀ call reader fuel p w s'', Sequence.next call reader fuel q p s' = .ok w s'' → w = v) ∧
    ∀ {l r a c n pair s'}, E.watched l → E.watched r →
      s.Draws (s.sequence l).source (s.sequence r).source → s.Holds l a → s.Holds r c →
      (Reader.ofDepth E.call n).pair false l r s = .ok pair s' →
      (∃ x y z, E.stream b (s.source b).advanced = .ok (some x) ∧
        E.Makes b l x (.ok (some y)) ∧ E.reading.means s a y ∧
        E.Makes b r x (.ok (some z)) ∧ E.reading.means s c z) ∧
      ∃ i j x x' y z, (s.source b).advanced ≤ i ∧ i < j ∧ j < (s'.source b).advanced ∧
        E.stream b i = .ok (some x) ∧ E.Makes b l x (.ok (some y)) ∧
        E.stream b j = .ok (some x') ∧ E.Makes b r x' (.ok (some z)) := by
  obtain ⟨forest, -, -, log, accounts⟩ := chained.run chained.forest run
  rw [chained.unread] at accounts
  exact ⟨⟨log, accounts⟩, fun hq returns overtakes => chained.overtaken forest hq returns overtakes,
    fun hl hr draws ha hc hpair => chained.pair_loses forest hl hr draws ha hc hpair⟩

end Chained

end Setting

/-! ## Sequences over a range -/

/-- A range up to 4 from which some elements have been consumed, the first three elements of it, from
which some have been consumed too, and what is below two in the range. -/
def rangeAt (consumed taken : Nat) : Store :=
  .withSources
    #[⟨.range ((Number.integer 0).afterSteps (.integer 1) consumed) (.integer 4) (.integer 1) .start,
        consumed, false⟩, ⟨.take ⟨0⟩ (3 - taken), taken, false⟩]
    #[⟨⟨0⟩, [], none, .start⟩, ⟨⟨1⟩, [], none, .start⟩,
      ⟨⟨0⟩, [.filter (.function (.operating 0 ⟨0⟩ "x" .less (.integer 2) .start))], none, .start⟩]

/-- `range(0, 4)`, the first three elements of it, and what is below two of it. -/
def sharedRange : Setting Datum where
  own id := id.index < 2
  reading := Datum.reading _
  stream _ j := (Datum.reading (·.index < 2)).rangeElement
    ((Number.integer 0).afterSteps (.integer 1) j) (.integer 4) (.integer 1) .start
  limit _ := 3
  call := Action.apply 1
  start := rangeAt 0 0
  watched q := q = ⟨0⟩ ∨ q = ⟨1⟩ ∨ q = ⟨2⟩
  exists_of_watched := by
    rintro q (rfl | rfl | rfl) <;> decide
  free_of_watched := by
    rintro q (rfl | rfl | rfl) t ht
    · cases ht
    · cases ht
    · obtain rfl := List.mem_singleton.mp ht
      exact Datum.operating_effectFree (show Datum.IsPlain .less from trivial) (by decide) (by decide)

/-- The first of the three elements, the next element of the range, and the end of what is below two:
two elements are delivered, and two are rejected. -/
theorem sharedRange_exactly_once :
    ∃ s log, (s.source ⟨0⟩).advanced = 4 ∧ sharedRange.Accounts ⟨0⟩ s
      [(.next ⟨1⟩ .start, .ok (.element (.number (.integer 0)))),
        (.next ⟨0⟩ .start, .ok (.element (.number (.integer 1)))),
        (.atEnd ⟨2⟩, .ok (.truth true))] 0 4 log := by
  have unread : ∀ {id g}, id.index < 2 → sharedRange.start.source id = ⟨g, 0, false⟩ →
      sharedRange.Unread id g := by
    refine fun hlt h => ⟨hlt, hlt, h, ?_⟩
    rintro q (rfl | rfl | rfl) - <;> rfl
  have hat : sharedRange.At sharedRange.start (sharedRange.stream ⟨0⟩) 0
      (.range (.integer 0) (.integer 4) (.integer 1) .start) := .range fun _ => rfl
  have h₀ : sharedRange.Stands sharedRange.start ⟨0⟩ (.raw (sharedRange.stream ⟨0⟩) 0) [⟨0⟩] :=
    (unread (by decide) rfl).stands (.raw hat) ⟨rfl, rfl⟩ List.not_mem_nil
  have takes : sharedRange.Supplies sharedRange.start (.take ⟨0⟩ 3) _ [⟨0⟩] := .take (.inl rfl) h₀
  have h₁ : sharedRange.Stands sharedRange.start ⟨1⟩ _ [⟨1⟩, ⟨0⟩] :=
    (unread (by decide) rfl).stands takes rfl (by decide)
  have chained : sharedRange.Chained ⟨0⟩ := by
    refine ⟨⟨.refl _ _, ?_⟩, ?_, rfl, rfl, ?_⟩
    · rintro q (rfl | rfl | rfl)
      · exact ⟨_, _, h₀⟩
      · exact ⟨_, _, h₁⟩
      · exact ⟨_, _, h₀⟩
    · rintro q (rfl | rfl | rfl)
      · exact .self
      · exact .through (q := ⟨0⟩) List.mem_cons_self .self
      · exact .self
    · rintro ⟨i⟩ hi
      obtain rfl | rfl : i = 0 ∨ i = 1 := by
        have hi : i < 2 := hi
        omega
      · decide
      · decide
  -- no sequence holds an element between the requests
  have orderly : ∀ {q s consumed taken} q' v,
      ¬ sharedRange.Overtakes ⟨0⟩ q (rangeAt consumed taken) s q' v := by
    rintro q s consumed taken q' v ⟨rfl | rfl | rfl, -, holds, -⟩ <;> cases holds
  have first : (Request.next ⟨1⟩ .start).Returns sharedRange.call 8 (rangeAt 0 0)
      (.ok (.element (.number (.integer 0)))) (rangeAt 1 1) := .value rfl
  have second : (Request.next ⟨0⟩ .start).Returns sharedRange.call 8 (rangeAt 1 1)
      (.ok (.element (.number (.integer 1)))) (rangeAt 2 1) := .value rfl
  obtain ⟨s, third, hadvanced⟩ : ∃ s, (Request.atEnd ⟨2⟩).Returns sharedRange.call 8 (rangeAt 2 1)
      (.ok (.truth true)) s ∧ (s.source ⟨0⟩).advanced = 4 := ⟨_, .value rfl, rfl⟩
  have run : sharedRange.OrderlyRun ⟨0⟩ 8 sharedRange.start _ s :=
    .cons (.inr (.inl rfl)) (by nofun) first orderly
      (.cons (.inl rfl) (by nofun) second orderly
        (.cons (.inr (.inr rfl)) (by nofun) third orderly .nil))
  obtain ⟨log, accounts⟩ := (Setting.Chained.exactly_once chained run).1
  rw [hadvanced] at accounts
  exact ⟨s, log, hadvanced, accounts⟩

/-- `range(0, 5)`, and the first two elements of it. -/
def overtakenRange : Store :=
  .withSources
    #[⟨.range (.integer 0) (.integer 5) (.integer 1) .start, 0, false⟩, ⟨.take ⟨0⟩ 2, 0, false⟩]
    #[⟨⟨0⟩, [], none, .start⟩, ⟨⟨1⟩, [], none, .start⟩]

/-- If the first two elements are looked at before the range delivers its first element, they deliver
it again; two elements are consumed, of which the second one is never delivered. -/
theorem overtaken_range_delivers_twice :
    (∃ s, Sequence.create (.range (.integer 0) (.integer 5) (.integer 1) .start) .start
        (.withSources #[] #[]) = .ok (.sequence ⟨0⟩) s ∧
      Sequence.create (.take ⟨0⟩ 2) .start s = .ok (.sequence ⟨1⟩) overtakenRange) ∧
    ∃ s s' s'', (Request.peek ⟨1⟩ .start).perform (Action.apply 1) 8 overtakenRange =
        .ok (.element (.number (.integer 0))) s ∧
      (Request.next ⟨0⟩ .start).perform (Action.apply 1) 8 s =
        .ok (.element (.number (.integer 0))) s' ∧
      (Request.next ⟨1⟩ .start).perform (Action.apply 1) 8 s' =
        .ok (.element (.number (.integer 0))) s'' ∧
      (s''.source ⟨0⟩).advanced = 2 :=
  ⟨⟨_, rfl, rfl⟩, _, _, _, rfl, rfl, rfl, rfl⟩

end Abacus
