import Abacus.Proofs.Sequence.Atop
import Abacus.Proofs.Sequence.Below

/-!
# Taking

`take(s, n)` is a sequence over a source of its own, which takes from `s`. When it is collected, each
round looks through the source into `s`, holds what it finds there, and looks through it once more to
consume it. What `s` has found it holds, too, so the second look finds the same and asks for nothing;
and the source counts what it has given, so after `n` elements it does not look into `s` again.

**The law** (`Setting.Closed.collectTake_abreast`): collecting `take(s, n)` is reading `n` elements of `s`,
and leaves `s` where that leaves it.
-/

namespace Abacus

/-- The first elements of a sequence that is read alone: it is asked whether it has one more, and for
that one, as often as it says. -/
def Reader.first (reader : Reader) (q : SequenceId) : (count : Nat) → Action (List Value)
  | 0 => pure []
  | count + 1 => do
    if ← reader.atEnd q then return []
    let value ← reader.next q false
    return value :: (← reader.first q count)

/-- `collect(take(s, count))`. -/
def Native.collectTake (machine : Machine) (p last : Position) (q : SequenceId) (count : Int64) :
    Action Value := do
  let taken ← Native.take.run machine p [.sequence q, .number (.integer count)]
  Native.collect.run machine last [taken]

/-- With a deeper reader the first elements are the same. -/
theorem Reader.first_below {reader reader' : Reader} (h : reader.Below reader') (q : SequenceId)
    (n : Nat) : Action.Below (reader.first q n) (reader'.first q n) := by
  induction n with
  | zero => exact .refl _
  | succ n ih =>
    refine (h.atEnd q).bind fun _ => .ite (.refl _) ?_
    exact (h.next q false).bind fun _ => ih.bind fun _ => .refl _

namespace Native

/-- To take from a sequence is to make a source that keeps it and a count. -/
theorem run_take (machine : Machine) (p : Position) (q : SequenceId) {count : Int64}
    (hcount : 0 ≤ count.toInt) : take.run machine p [.sequence q, .number (.integer count)] =
      Sequence.create (.take q count.toInt.toNat) p := by
  rw [run, expectCount, if_neg (Int.not_lt.mpr hcount)]
  rfl

/-- To collect is to make a vector of the elements. -/
theorem run_collect (machine : Machine) (p : Position) (t : SequenceId) :
    collect.run machine p [.sequence t] =
      Sequence.collect machine.call machine.reader machine.fuel t >>= Action.newVector := by
  rw [run]
  · rfl
  · exact fun _ h => nomatch h

/-- A new source, a new sequence over it, and a new vector of what the sequence gives. -/
theorem collectTake_eq (machine : Machine) (p last : Position) (q : SequenceId) {count : Int64}
    (hcount : 0 ≤ count.toInt) : collectTake machine p last q count = (do
      let source ← Action.create (·.addSource (.take q count.toInt.toNat))
      let t ← Action.create (·.addSequence ⟨source, [], none, p⟩)
      Action.newVector (← Sequence.collect machine.call machine.reader machine.fuel t)) := by
  rw [collectTake, run_take machine p q hcount, Sequence.create]
  simp only [bind_assoc, pure_bind, run_collect]

/-- What is taken is collected the same with a call that answers more. -/
theorem collectTake_below {call call' : Call} (h : call.Below call') (fuel : Nat)
    (p last : Position) (q : SequenceId) {count : Int64} (hcount : 0 ≤ count.toInt) :
    Action.Below (collectTake (.ofDepth call fuel) p last q count)
      (collectTake (.ofDepth call' fuel) p last q count) := by
  rw [collectTake_eq _ p last q hcount, collectTake_eq _ p last q hcount]
  have hreader := Reader.ofDepth_below h (Nat.le_refl fuel)
  refine (Action.Below.refl _).bind fun _ => (Action.Below.refl _).bind fun t => ?_
  exact (Sequence.collect_below h hreader t (Nat.le_refl fuel)).bind fun _ => .refl _

end Native

namespace Generator

variable {call : Call} {reader : Reader} {peek : Bool} {q : SequenceId} {n : Nat} {v : Value}
  {e : Interruption} {s s₁ s₂ : Store}

/-- What takes from a sequence is at its end where the sequence is. -/
theorem pull_take_ended (hx : reader.atEnd q s = .ok true s₁) :
    pull call reader peek (.take q (n + 1)) s = .ok none s₁ := by
  rw [pull_take_succ, Action.bind_ok hx]
  rfl

/-- If asking for the end fails, so does taking. -/
theorem pull_take_error (hx : reader.atEnd q s = .error e s₁) :
    pull call reader peek (.take q (n + 1)) s = .error e s₁ := by
  rw [pull_take_succ, Action.bind_error hx]

/-- What takes from a sequence gives what the sequence gives. -/
theorem pull_take_found (hx : reader.atEnd q s = .ok false s₁)
    (hnext : reader.next q peek s₁ = .ok v s₂) :
    pull call reader peek (.take q (n + 1)) s =
      .ok (some (v, .take q (if peek then n + 1 else n))) s₂ := by
  rw [pull_take_succ, Action.bind_ok hx]
  exact Action.bind_ok hnext _

/-- If the next element fails after that, so does taking. -/
theorem pull_take_lost (hx : reader.atEnd q s = .ok false s₁)
    (hnext : reader.next q peek s₁ = .error e s₂) :
    pull call reader peek (.take q (n + 1)) s = .error e s₂ := by
  rw [pull_take_succ, Action.bind_ok hx]
  exact Action.bind_error hnext _

end Generator

namespace Setting

variable {D : Type} {E : Setting D} {T : SourceId} {t q : SequenceId} {n depth fuel : Nat} {v : Value}
  {s s' s₀ s₁ s₁' s₂ : Store}

/-! ## A source that takes -/

/-- A source that takes at most so many elements of a sequence, and a sequence without transformers
over it. Nothing that is watched reads from the source. -/
structure Taker (E : Setting D) (T : SourceId) (t q : SequenceId) (n : Nat) (s : Store) : Prop where
  lt : T.index < s.sources.size
  own : E.own T
  apart : ¬ E.Feeds T
  generator : (s.source T).generator = .take q n
  idle : (s.source T).busy = false
  exists_sequence : t.index < s.sequences.size
  source : (s.sequence t).source = T
  plain : (s.sequence t).transformers = []

/-- A source that takes is one on top of its sequence. -/
theorem Taker.atop (h : E.Taker T t q n s) : E.Atop T t (.take q n) s :=
  ⟨h.lt, h.own, h.apart, h.generator, h.idle, h.exists_sequence, h.source, h.plain⟩

/-- And a source on top that takes is one that takes. -/
theorem Taker.of_atop (h : E.Atop T t (.take q n) s) : E.Taker T t q n s :=
  ⟨h.lt, h.own, h.apart, h.generator, h.idle, h.exists_sequence, h.source, h.plain⟩

/-- What happens to such a source, and to the sequence over it, before and after a run goes unnoticed
by the sequences that are watched. -/
theorem Onward.inside (h : E.Taker T t q n s) (before : s.Keeps (· = T) s₀)
    (onward : E.Onward s₀ s' s₁ s₁') (behind : s₁.Keeps (· = T) s₂) : E.Onward s s' s₂ s₁' := by
  have sub := h.atop.sub
  have kept : s.Keeps E.own s₂ := ((before.mono sub).trans onward.kept).trans (behind.mono sub)
  refine ⟨onward.twins.beside behind (Store.Keeps.refl (fun _ => False) s₁') sub
    (fun _ h => h.elim) h.atop.outside fun _ _ h => h, kept, onward.kept', fun id busy => ?_⟩
  have hne : id ≠ T := by
    rintro rfl
    exact Bool.noConfusion (h.idle.symm.trans busy)
  have hsame := before.source (Store.lt_of_busy busy) hne
  have busy₀ : (s₀.source id).busy = true := by rw [hsame, busy]
  have hsame₁ := onward.spares id busy₀
  have busy₁ : (s₁.source id).busy = true := by rw [hsame₁, busy₀]
  exact (behind.source (Store.lt_of_busy busy₁) hne).trans (hsame₁.trans hsame)

/-- How the source stands after it has given an element, and the sequence over it holds something or
nothing. -/
structure Delivered (E : Setting D) (T : SourceId) (t q : SequenceId) (n : Nat) (peek : Bool)
    (p : Option (Nat × Value)) (s s' s₁ s₁' s₂ : Store) : Prop where
  onward : E.Onward s s' s₂ s₁'
  behind : s₁.Keeps (· = T) s₂
  taker : E.Taker T t q n s₂
  advanced : (s₂.source T).advanced = (s.source T).advanced + (if peek then 0 else 1)
  pending : (s₂.sequence t).pending = p

section Rounds

variable (h : E.Taker T t q n s)

include h

/-- While it is in use its sequence stands as before. -/
theorem Taker.twins_engaged (twins : E.Twins s s') : E.Twins (Sequence.engage s T) s' :=
  (Onward.inside h (.refl _ _) (.refl twins) (Sequence.keeps_engage s T)).twins

/-- After the source has worked without giving anything. -/
theorem Taker.released (onward : E.Onward (Sequence.engage s T) s' s₁ s₁') :
    E.Onward s s' (Sequence.release s₁ T) s₁' :=
  .inside h (Sequence.keeps_engage s T) onward (Sequence.keeps_release s₁ T)

/-- When it has given an element its sequence stands where it was read to. -/
theorem Taker.delivered (onward : E.Onward (Sequence.engage s T) s' s₁ s₁') (m : Nat) (peek : Bool)
    (p : Option (Nat × Value)) :
    E.Delivered T t q m peek p s s' s₁ s₁'
      ((Sequence.release (Sequence.deliver s₁ T (.take q m) peek) T).setPending t p) := by
  have given := h.atop.given (.take q m) onward.kept onward.spares rfl peek p
  exact ⟨.inside h (Sequence.keeps_engage s T) onward given.behind, given.behind,
    .of_atop given.atop, given.advanced, given.pending⟩

end Rounds

/-! ## Rounds -/

section Rounds

variable (h : E.Taker T t q (n + 1) s)

include h

/-- **The sequence over the source is at its end where the other one is**; otherwise both hold an
element. -/
theorem Taker.atEnd_abreast (hq : E.watched q) (hp : (s.sequence t).pending = none)
    (twins : E.Twins s s') (depth fuel : Nat) :
    E.Abreast (fun s₁ _ a b => a = b ∧ (a = false →
        ∃ v, E.Taker T t q (n + 1) s₁ ∧ s₁.Holds t v ∧ s₁.Holds q v)) s s'
      (Sequence.atEnd E.call (.ofDepth E.call (depth + 1)) (fuel + 1) t s)
      ((Reader.ofDepth E.call (depth + 1)).atEnd q s') := by
  have looked := lookahead_abreast (reader_abreast E depth) (h.twins_engaged twins) hq depth
  generalize hx : Sequence.lookahead _ _ depth q (Sequence.engage s T) = rx at looked
  generalize hy : Sequence.lookahead _ _ depth q s' = ry at looked
  cases looked with
  | interruption =>
    rw [Reader.atEnd_error hy, Sequence.atEnd_error (h.atop.lookahead_error hp
      (Generator.pull_take_error (Reader.atEnd_error hx)))]
    exact .interruption
  | @value o o' s₁ s₁' onward ho =>
    rw [Reader.atEnd_ok hy]
    cases ho with
    | none =>
      rw [Sequence.atEnd_ok (h.atop.lookahead_ended hp
        (Generator.pull_take_ended (Reader.atEnd_ok hx)))]
      exact .value (h.released onward) ⟨rfl, fun h => nomatch h⟩
    | @some v v' hv =>
      obtain ⟨-, holds⟩ := hv
      -- the sequence holds what it has found, and shows it without a further look
      have hpeek : (Reader.ofDepth E.call (depth + 1)).next q true s₁ = .ok v s₁ :=
        Sequence.peek_some (Sequence.lookahead_of_holds holds)
      have found : Generator.pull E.call _ true (.take q (n + 1)) (Sequence.engage s T) =
          .ok (some (v, .take q (n + 1))) s₁ :=
        Generator.pull_take_found (Reader.atEnd_ok hx) hpeek
      rw [Sequence.atEnd_ok (h.atop.lookahead_found hp found)]
      have delivered := h.delivered onward (n + 1) true (some ((s.source T).advanced, v))
      refine .value delivered.onward ⟨rfl, fun _ => ⟨v, delivered.taker, ?_, ?_⟩⟩
      · rw [Store.Holds, delivered.pending, delivered.taker.source, delivered.advanced]
        rfl
      · have hfeeds := onward.twins.feeds hq
        exact holds.keeps delivered.behind (exists_of_kept onward.twins.kept hq) hfeeds.2
          fun e => h.apart (e ▸ hfeeds.1)

/-- **The sequence over the source gives what the other one gives**, which is held. -/
theorem Taker.next_abreast (hq : E.watched q) (twins : E.Twins s s') (ht : s.Holds t v)
    (holds : s.Holds q v) (depth fuel : Nat) (p : Position) :
    E.Abreast (fun s₁ s₁' a b => E.Same s₁ s₁' a b ∧ E.Taker T t q n s₁ ∧
        (s₁.sequence t).pending = none) s s'
      (Sequence.next E.call (.ofDepth E.call (depth + 1)) fuel t p s)
      ((Reader.ofDepth E.call (depth + 1)).next q false s') := by
  have hfeeds := twins.feeds hq
  have holds₀ : (Sequence.engage s T).Holds q v :=
    holds.keeps (Sequence.keeps_engage s T) (exists_of_kept twins.kept hq) hfeeds.2
      fun e => h.apart (e ▸ hfeeds.1)
  have hx : (Reader.ofDepth E.call (depth + 1)).atEnd q (Sequence.engage s T) =
      .ok false (Sequence.engage s T) := Reader.atEnd_ok (Sequence.lookahead_of_holds holds₀)
  have given := (reader_abreast E (depth + 1)).next false (h.twins_engaged twins) hq
  generalize hnext : (Reader.ofDepth E.call (depth + 1)).next q false (Sequence.engage s T) = rx
    at given
  generalize (Reader.ofDepth E.call (depth + 1)).next q false s' = ry at given
  cases given with
  | interruption =>
    rw [h.atop.next_lost ht (Generator.pull_take_lost hx hnext)]
    exact .interruption
  | @value w w' s₁ s₁' onward hw =>
    obtain rfl : w = v := Sequence.next_of_holds_eq holds₀ hnext
    rw [h.atop.next_found ht (Generator.pull_take_found hx hnext)]
    have delivered := h.delivered onward n false none
    refine .value delivered.onward ⟨?_, delivered.taker, delivered.pending⟩
    refine hw.keeps (delivered.behind.mono ?_) (.refl _ _)
    rintro _ rfl
    exact h.own

end Rounds

/-- Once it has given all, the source leaves everything as it is. -/
theorem Taker.atEnd_spent (h : E.Taker T t q 0 s) (hp : (s.sequence t).pending = none) {call : Call}
    {reader : Reader} : Sequence.atEnd call reader (fuel + 1) t s = .ok true s := by
  refine Sequence.atEnd_ok (o := none) ?_
  have hraw : Sequence.raw call reader true T (s.sequence t).position s =
      .ok none (Sequence.release (Sequence.engage s T) T) := by
    refine Sequence.raw_ended h.idle ?_
    rw [h.generator, Generator.pull_take_zero]
    rfl
  rw [Sequence.lookahead_plain hp h.plain, h.source, Action.bind_ok hraw,
    Sequence.release_engage h.idle]
  rfl

/-- What has been collected, the last element first, stands for the same data as the elements in front
and those after them. -/
def Collected (E : Setting D) (front : List Value) (s s' : Store) (items vs : List Value) : Prop :=
  List.Forall₂ (E.Same s s') items.reverse (front ++ vs)

/-- **Collecting goes round by round as reading the other sequence alone does.** -/
theorem Taker.foldAll_abreast (h : E.Taker T t q n s) (hq : E.watched q)
    (hp : (s.sequence t).pending = none) (twins : E.Twins s s') (depth : Nat) (hfuel : n < fuel)
    (p : Position) {items front : List Value}
    (hitems : List.Forall₂ (E.Same s s') items.reverse front) :
    E.Abreast (E.Collected front) s s'
      (Sequence.foldAll E.call (.ofDepth E.call (depth + 1)) t p
        (fun items item => pure (item :: items)) fuel items s)
      ((Reader.ofDepth E.call (depth + 1)).first q n s') := by
  induction n generalizing s s' fuel items front with
  | zero =>
    obtain ⟨fuel, rfl⟩ := Nat.exists_eq_succ_of_ne_zero (Nat.ne_of_gt hfuel)
    rw [Sequence.foldAll, Action.bind_ok (h.atEnd_spent hp)]
    refine .value (.refl twins) ?_
    rw [Collected, List.append_nil]
    exact hitems
  | succ n ih =>
    obtain ⟨fuel, rfl⟩ := Nat.exists_eq_succ_of_ne_zero (Nat.ne_of_gt (Nat.zero_lt_of_lt hfuel))
    rw [Sequence.foldAll, Reader.first]
    refine (h.atEnd_abreast hq hp twins depth fuel).bind fun {s₁ s₁' done done'} onward hdone => ?_
    obtain ⟨rfl, hheld⟩ := hdone
    have hitems₁ := hitems.imp fun _ _ hv => hv.keeps onward.kept onward.kept'
    cases done with
    | true =>
      refine .value (.refl onward.twins) ?_
      rw [Collected, List.append_nil]
      exact hitems₁
    | false =>
      obtain ⟨v, taker, ht, holds⟩ := hheld rfl
      refine (taker.next_abreast hq onward.twins ht holds depth (fuel + 1) p).bind
        fun {s₂ s₂' a b} onward₂ hgiven => ?_
      obtain ⟨hab, taker₂, hp₂⟩ := hgiven
      have hitems₂ : List.Forall₂ (E.Same s₂ s₂') (a :: items).reverse (front ++ [b]) := by
        rw [List.reverse_cons]
        refine List.rel_append ?_ (.cons hab .nil)
        exact hitems₁.imp fun _ _ hv => hv.keeps onward₂.kept onward₂.kept'
      have hrest := ih taker₂ hp₂ onward₂.twins (Nat.lt_of_succ_lt_succ hfuel) hitems₂
      have hall : E.Abreast (E.Collected front) s₂ s₂' _ _ := hrest.bind
        (f := pure) (g := fun vs => pure (b :: vs)) fun onward₃ hall => by
          rw [Collected, List.append_assoc] at hall
          exact .value (.refl onward₃.twins) hall
      rwa [bind_pure] at hall

/-! ## Collecting what is taken -/

/-- A value is a vector, and its elements stand for the same data as the values of a list do in another
store. -/
def Lines (E : Setting D) (s s' : Store) (x : Value) (vs : List Value) : Prop :=
  ∃ w, x = .vector w ∧ w.index < s.vectors.size ∧ List.Forall₂ (E.Same s s') (s.items w) vs

section Collecting

variable {count : Int64} {p : Position} {x : Value}

/-- When it is made, the sequence of what is taken is over a new source that takes. -/
theorem take_begins (machine : Machine) (hcount : 0 ≤ count.toInt) (q : SequenceId) (p : Position)
    (s : Store) :
    Ended (fun s' x _ => Stage.Begins ⟨s.sources.size⟩ (.take q count.toInt.toNat) ⟨[], p⟩ s' x) s
      (.ok ()) (Native.take.run machine p [.sequence q, .number (.integer count)] s) := by
  rw [Native.run_take machine p q hcount]
  exact Pipeline.create_begins _ p s

/-- A sequence that has just been made takes and has given nothing. -/
theorem Taker.of_begins (closed : E.Closed) (hown : E.own ⟨E.start.sources.size⟩)
    (h : Stage.Begins ⟨E.start.sources.size⟩ (.take q n) ⟨[], p⟩ s x) :
    ∃ t, x = .sequence t ∧ E.Taker ⟨E.start.sources.size⟩ t q n s ∧
      (s.sequence t).pending = none := by
  obtain ⟨t, rfl, atop, hp⟩ := Atop.of_begins closed hown h
  exact ⟨t, rfl, .of_atop atop, hp⟩

/-- **Collecting what is taken from a sequence goes as reading the sequence alone does.** -/
theorem Closed.collectTake_abreast (closed : E.Closed) (hq : E.watched q)
    (hown : E.own ⟨E.start.sources.size⟩) (hcount : 0 ≤ count.toInt)
    (hdepth : count.toInt.toNat ≤ depth) (p last : Position) :
    E.Abreast E.Lines E.start E.start
      (Native.collectTake (.ofDepth E.call (depth + 1)) p last q count E.start)
      ((Reader.ofDepth E.call (depth + 1)).first q count.toInt.toNat E.start) := by
  have begins := take_begins (.ofDepth E.call (depth + 1)) hcount q p E.start
  generalize hrun : Native.take.run _ p _ E.start = result at begins
  cases begins with
  | @value x _ s₀ hx grown =>
    rw [Native.collectTake, Action.bind_ok hrun]
    obtain ⟨t, rfl, taker, hp⟩ := Taker.of_begins closed hown hx
    have onward : E.Onward E.start E.start s₀ E.start := .of_grows closed grown (.refl _ _)
    refine Abreast.after onward ?_
    have collected := taker.foldAll_abreast hq hp onward.twins depth (Nat.lt_succ_of_le hdepth)
      (s₀.sequence t).position (show List.Forall₂ (E.Same s₀ E.start) [].reverse [] from .nil)
    have made : E.Abreast E.Lines s₀ E.start _ _ :=
      collected.bind (f := fun items => Action.newVector items.reverse) (g := pure)
        fun {s₁ s₁' items vs} onward hall => by
          have grown := s₁.grows_addVector items.reverse.toArray
          refine .value (.of_grows onward.twins grown (.refl _ _)) ⟨_, rfl, ?_, ?_⟩
          · simp [Store.addVector]
          · rw [Store.items, Store.vector_addVector_new]
            exact hall.imp fun _ _ hv => hv.keeps (grown.keeps _) (.refl _ _)
    rw [bind_pure] at made
    rw [Native.run_collect, Sequence.collect]
    simp only [bind_assoc, pure_bind, Action.view_bind]
    exact made

/-- **What a sequence gives when it is read alone, it gives to who collects what is taken from it**,
with more budget, and with a call that answers more. -/
theorem Closed.collectTake_of_first (closed : E.Closed) (hq : E.watched q)
    (hown : E.own ⟨E.start.sources.size⟩) (hcount : 0 ≤ count.toInt) (p last : Position)
    {vs : List Value} (alone : (Reader.ofDepth E.call depth).first q count.toInt.toNat E.start =
      .ok vs s₁) {call : Call} (hcall : E.call.Below call) (hdepth : depth ≤ fuel)
    (hfuel : count.toInt.toNat < fuel) :
    ∃ x s₂, Native.collectTake (.ofDepth call fuel) p last q count E.start = .ok x s₂ ∧
      E.Lines s₂ s₁ x vs ∧ E.Twins s₂ s₁ := by
  obtain ⟨fuel, rfl⟩ := Nat.exists_eq_succ_of_ne_zero (Nat.ne_of_gt (Nat.zero_lt_of_lt hfuel))
  have abreast := closed.collectTake_abreast hq hown hcount (Nat.le_of_lt_succ hfuel) p last
  have deeper := Reader.first_below (Reader.ofDepth_below (.refl E.call) hdepth) q _ alone
  rw [deeper] at abreast
  generalize htaken : Native.collectTake _ p last q count E.start = taken at abreast
  cases abreast with
  | value onward lines =>
    exact ⟨_, _, Native.collectTake_below hcall _ p last q hcount htaken, lines, onward.twins⟩

/-- **If nothing is taken, nothing is touched**, whatever could be called or read. -/
theorem Closed.collectTake_zero (closed : E.Closed) (hown : E.own ⟨E.start.sources.size⟩)
    (machine : Machine) (hfuel : 0 < machine.fuel) (p last : Position) (q : SequenceId) :
    ∃ w s', Native.collectTake machine p last q 0 E.start = .ok (.vector w) s' ∧ s'.items w = [] ∧
      E.start.Grows s' := by
  have begins := take_begins machine (show (0 : Int) ≤ (0 : Int64).toInt by decide) q p E.start
  generalize hrun : Native.take.run _ p _ E.start = result at begins
  cases begins with
  | @value x _ s₀ hx grown =>
    obtain ⟨t, rfl, taker, hp⟩ := Taker.of_begins closed hown hx
    obtain ⟨fuel, hfuel⟩ := Nat.exists_eq_succ_of_ne_zero (Nat.ne_of_gt hfuel)
    refine ⟨(s₀.addVector #[]).1, (s₀.addVector #[]).2, ?_, ?_,
      grown.trans (s₀.grows_addVector #[])⟩
    · rw [Native.collectTake, Action.bind_ok hrun, Native.run_collect, Sequence.collect, hfuel,
        bind_assoc, Action.view_bind, Sequence.foldAll, bind_assoc, bind_assoc,
        Action.bind_ok (taker.atEnd_spent hp)]
      rfl
    · rw [Store.items, Store.vector_addVector_new]

end Collecting

end Setting

end Abacus
