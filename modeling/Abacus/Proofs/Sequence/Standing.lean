import Abacus.Proofs.Sequence.Supply

/-!
# Supplies in a store

How a store holds a supply: `Setting.At` says that a generator stands at a place of a stream,
`Setting.Supplies` that a generator gives what a supply has, and `Setting.Stands` that a source does.
Each source of the tree appears in the list that comes with it, and in it once: two sides of a pair
read from sources of their own. Wherever a sequence over such a source has looked ahead, the element
that it holds is the one that lies in place (`Setting.Coherent`).

**The law** (`Setting.Stands.keeps`): what happens outside the sources of a tree leaves it standing.
-/

namespace Abacus

/-- The number reached from `start` in so many steps. -/
def Number.afterSteps (start step : Number) : Nat → Number
  | 0 => start
  | n + 1 => (start.afterSteps step n).add step

namespace Reading

variable {own : SourceId → Prop} {D : Type} (R : Reading own D)

/-- The element of a function at an index, up to a limit. -/
def indexElement (f : Value) (limit : Option Int) (p : Position) (j : Nat) :
    Except Interruption (Option D) :=
  if limit.any (· ≤ (j : Int)) then .ok none
  else (R.apply f (R.number (.integer (Int64.ofNat j))) p).map some

/-- The element of a range at a number. -/
def rangeElement (current stop step : Number) (p : Position) : Except Interruption (Option D) :=
  match Generator.rangeAtEnd current stop step with
  | .ok true => .ok none
  | .ok false => .ok (some (R.number current))
  | .error failure => .error (.fault ⟨.number failure, p⟩)

end Reading

/-- What a run of reads is about: a way to call functions, a store in which it starts, the sources
that it may move, a reading of the values that come out, and the sequences that it looks at, whose
transformers are effect-free. -/
structure Setting (D : Type) where
  own : SourceId → Prop
  reading : Reading own D
  /-- What there is to come from a source that takes from no sequence. -/
  stream : SourceId → Nat → Except Interruption (Option D)
  /-- How much a source may take in all from the sequence that it takes from. -/
  limit : SourceId → Nat
  call : Call
  start : Store
  watched : SequenceId → Prop
  exists_of_watched : ∀ {q : SequenceId}, watched q → q.index < start.sequences.size
  free_of_watched : ∀ {q : SequenceId}, watched q →
    ∀ t ∈ (start.sequence q).transformers, reading.EffectFree call start t.function

namespace Setting

variable {D : Type} (E : Setting D)

/-- The transformers of a sequence, which never change. -/
abbrev pipe (q : SequenceId) : Pipe := (E.start.sequence q).pipe

/-- In a store, a generator stands at a place of a stream: what it has computed already is the
element there. -/
inductive At (s : Store) (r : Nat → Except Interruption (Option D)) : Nat → Generator → Prop
  | index {f : Value} {k : Nat} {limit : Option Int} {cached : Option Value} {p : Position} :
    E.reading.EffectFree E.call E.start f → (∀ j, r j = E.reading.indexElement f limit p j) →
    (∀ v, cached = some v → ∃ d, r k = .ok (some d) ∧ E.reading.means s v d) →
    At s r k (.index f k limit cached p)
  | upcoming {f v : Value} {previous : Option Value} {k : Nat} {d : D} {p : Position} :
    E.reading.EffectFree E.call E.start f →
    (∀ j x, r j = .ok (some x) → r (j + 1) = (E.reading.apply f x p).map some) →
    r k = .ok (some d) → E.reading.means s v d → At s r k (.iterate f (some v) previous p)
  | previous {f v : Value} {k : Nat} {d : D} {p : Position} :
    E.reading.EffectFree E.call E.start f →
    (∀ j x, r j = .ok (some x) → r (j + 1) = (E.reading.apply f x p).map some) →
    r k = .ok (some d) → E.reading.means s v d → At s r (k + 1) (.iterate f none (some v) p)
  | range {start stop step : Number} {k : Nat} {p : Position} :
    (∀ j, r j = E.reading.rangeElement (start.afterSteps step j) stop step p) →
    At s r k (.range (start.afterSteps step k) stop step p)
  | vector {items : VectorId} {k : Nat} {p : Position} : items.index < s.vectors.size →
    (∀ j v, (s.vector items)[j]? = some v → ∃ d, r j = .ok (some d) ∧ E.reading.means s v d) →
    (∀ j, (s.vector items)[j]? = none → r j = .ok none) → At s r k (.vector items k p)

/-- If the sequence has looked ahead and nothing has been consumed from its source since, then the
element that it holds lies in place. -/
def Coherent (s : Store) (q : SequenceId) (u : Supply D) : Prop :=
  ∀ n v, (s.sequence q).pending = some (n, v) →
    n ≤ (s.source (s.sequence q).source).advanced ∧
      (n = (s.source (s.sequence q).source).advanced →
        ∃ d, Seeks E.reading (s.sequence q).pipe u (.ok (some d)) u ∧ E.reading.means s v d)

mutual

/-- In a store, a generator gives what a supply has, by means of the sources listed. -/
inductive Supplies (s : Store) : Generator → Supply D → List SourceId → Prop
  | raw {g : Generator} {r : Nat → Except Interruption (Option D)} {k : Nat} :
    E.At s r k g → Supplies s g (.raw r k) []
  | take {q : SequenceId} {u : Supply D} {W : List SourceId} {n : Nat} : E.watched q →
    Stands s (s.sequence q).source u W →
    Supplies s (.take q n) (.take (s.sequence q).pipe u n) W
  | zip {l r : SequenceId} {u v : Supply D} {W V : List SourceId} : E.watched l → E.watched r →
    Stands s (s.sequence l).source u W → Stands s (s.sequence r).source v V → (∀ id ∈ W, id ∉ V) →
    Supplies s (.zip l r) (.zip (s.sequence l).pipe u (s.sequence r).pipe v) (W ++ V)

/-- In a store, a source gives what a supply has, by means of the sources listed, of which it is the
first; none of them is at work. -/
inductive Stands (s : Store) : SourceId → Supply D → List SourceId → Prop
  | mk {id : SourceId} {u : Supply D} {W : List SourceId} : id.index < s.sources.size → E.own id →
    (s.source id).busy = false → Supply.Counted (E.stream id) (E.limit id) (s.source id).advanced u →
    Supplies s (s.source id).generator u W → id ∉ W →
    (∀ q, E.watched q → (s.sequence q).source = id → E.Coherent s q u) → Stands s id u (id :: W)

end

variable {E}

/-- A watched sequence is one that the store has. -/
theorem exists_of_kept {s : Store} (kept : E.start.Keeps E.own s) {q : SequenceId}
    (hq : E.watched q) : q.index < s.sequences.size :=
  Nat.lt_of_lt_of_le (E.exists_of_watched hq) kept.size_sequences

/-- A generator stays at its place while the store keeps what it had. -/
theorem At.keeps {s s' : Store} {r : Nat → Except Interruption (Option D)} {k : Nat}
    {g : Generator} (h : E.At s r k g) (kept : s.Keeps E.own s') : E.At s' r k g := by
  cases h with
  | index free hr hcached =>
    refine .index free hr fun v hv => ?_
    obtain ⟨d, hd, hm⟩ := hcached v hv
    exact ⟨d, hd, E.reading.means_keeps kept hm⟩
  | upcoming free hr hd hm => exact .upcoming free hr hd (E.reading.means_keeps kept hm)
  | previous free hr hd hm => exact .previous free hr hd (E.reading.means_keeps kept hm)
  | range hr => exact .range hr
  | vector hv hsome hnone =>
    refine .vector (Nat.lt_of_lt_of_le hv kept.size_vectors) (fun j v hj => ?_) (fun j hj => ?_)
    · rw [kept.vector hv] at hj
      obtain ⟨d, hd, hm⟩ := hsome j v hj
      exact ⟨d, hd, E.reading.means_keeps kept hm⟩
    · rw [kept.vector hv] at hj
      exact hnone j hj

/-- What a sequence holds stays coherent while its source and it stay as they are. -/
theorem Coherent.keeps {own' : SourceId → Prop} {s s' : Store} {q : SequenceId} {u : Supply D}
    (h : E.Coherent s q u) (kept : s.Keeps own' s') (hsub : ∀ id, own' id → E.own id)
    (hq : q.index < s.sequences.size) (hid : (s.sequence q).source.index < s.sources.size)
    (hother : ¬ own' (s.sequence q).source) : E.Coherent s' q u := by
  intro n v hp
  rw [kept.pending hq hother] at hp
  obtain ⟨hle, heq⟩ := h n v hp
  rw [kept.source_eq hq, kept.source hid hother]
  refine ⟨hle, fun e => ?_⟩
  obtain ⟨d, hd, hm⟩ := heq e
  refine ⟨d, ?_, E.reading.means_keeps (kept.mono hsub) hm⟩
  rwa [Sequence.pipe, kept.transformers_eq hq, kept.position_eq hq]

/-- What a sequence holds stays coherent while its source is read: if nothing is consumed, then an
element that lies in place stays there. -/
theorem Coherent.read {s s' : Store} {q : SequenceId} {u w : Supply D} (h : E.Coherent s q u)
    (kept : s.Keeps E.own s') (hq : q.index < s.sequences.size)
    (same : (s'.sequence q).pending = (s.sequence q).pending)
    (hle : (s.source (s.sequence q).source).advanced ≤ (s'.source (s.sequence q).source).advanced)
    (stays : (s'.source (s.sequence q).source).advanced =
        (s.source (s.sequence q).source).advanced →
      (∃ x, Looks E.reading u (.ok (some x)) u) → w = u) : E.Coherent s' q w := by
  intro n v hp
  rw [same] at hp
  obtain ⟨hn, heq⟩ := h n v hp
  rw [kept.source_eq hq]
  refine ⟨Nat.le_trans hn hle, fun e => ?_⟩
  have hsame := Nat.le_antisymm (e ▸ hn) hle
  obtain ⟨d, hd, hm⟩ := heq (e.trans hsame)
  obtain rfl := stays hsame hd.looks
  refine ⟨d, ?_, E.reading.means_keeps kept hm⟩
  rwa [Sequence.pipe, kept.transformers_eq hq, kept.position_eq hq]

mutual

/-- A supply stays as it is while its sources do. -/
theorem Supplies.keeps {own' : SourceId → Prop} {s s' : Store} {g : Generator} {u : Supply D}
    {W : List SourceId} (start : E.start.Keeps E.own s) (kept : s.Keeps own' s')
    (hsub : ∀ id, own' id → E.own id) :
    E.Supplies s g u W → (∀ id ∈ W, ¬ own' id) → E.Supplies s' g u W
  | .raw h, _ => .raw (h.keeps (kept.mono hsub))
  | .take (q := q) hq h, hW => by
    have hlt := exists_of_kept start hq
    have hpipe : (s'.sequence q).pipe = (s.sequence q).pipe := by
      rw [Sequence.pipe, kept.transformers_eq hlt, kept.position_eq hlt]; rfl
    rw [← hpipe]
    refine .take hq ?_
    rw [kept.source_eq hlt]
    exact h.keeps start kept hsub hW
  | .zip (l := l) (r := r) hl hr h h' hdis, hW => by
    have hlt := exists_of_kept start hl
    have hrt := exists_of_kept start hr
    have hlpipe : (s'.sequence l).pipe = (s.sequence l).pipe := by
      rw [Sequence.pipe, kept.transformers_eq hlt, kept.position_eq hlt]; rfl
    have hrpipe : (s'.sequence r).pipe = (s.sequence r).pipe := by
      rw [Sequence.pipe, kept.transformers_eq hrt, kept.position_eq hrt]; rfl
    rw [← hlpipe, ← hrpipe]
    refine .zip hl hr ?_ ?_ hdis
    · rw [kept.source_eq hlt]
      exact h.keeps start kept hsub fun id hid => hW id (List.mem_append_left _ hid)
    · rw [kept.source_eq hrt]
      exact h'.keeps start kept hsub fun id hid => hW id (List.mem_append_right _ hid)

/-- **What happens outside the sources of a tree leaves it standing.** -/
theorem Stands.keeps {own' : SourceId → Prop} {s s' : Store} {id : SourceId} {u : Supply D}
    {W : List SourceId} (start : E.start.Keeps E.own s) (kept : s.Keeps own' s')
    (hsub : ∀ id, own' id → E.own id) :
    E.Stands s id u W → (∀ id ∈ W, ¬ own' id) → E.Stands s' id u W
  | .mk (W := V) hid hown idle counted h hnot coherent, hW => by
    have hother : ¬ own' id := hW id List.mem_cons_self
    have hsource := kept.source hid hother
    refine .mk (Nat.lt_of_lt_of_le hid kept.size_sources) hown ?_ ?_ ?_ hnot fun q hq hqid => ?_
    · rw [hsource, idle]
    · rw [hsource]
      exact counted
    · rw [hsource]
      exact h.keeps start kept hsub fun id' hid' => hW id' (List.mem_cons_of_mem _ hid')
    · have hlt := exists_of_kept start hq
      rw [kept.source_eq hlt] at hqid
      subst hqid
      exact (coherent q hq rfl).keeps kept hsub hlt hid hother

end

/-! ## New trees -/

/-- From a source nothing has been read, and no sequence over it has looked ahead. -/
structure Unread (E : Setting D) (id : SourceId) (g : Generator) : Prop where
  lt : id.index < E.start.sources.size
  own : E.own id
  source : E.start.source id = ⟨g, 0, false⟩
  pending : ∀ {q}, E.watched q → (E.start.sequence q).source = id → (E.start.sequence q).pending = none

/-- A source from which nothing has been read stands, if its generator gives what a supply has. -/
theorem Unread.stands {id : SourceId} {g : Generator} {u : Supply D} {W : List SourceId}
    (h : E.Unread id g) (hg : E.Supplies E.start g u W)
    (hu : Supply.Counted (E.stream id) (E.limit id) 0 u) (hnot : id ∉ W) :
    E.Stands E.start id u (id :: W) := by
  refine .mk h.lt h.own ?_ ?_ ?_ hnot fun q hq hid n v hp => ?_
  · rw [h.source]
  · rw [h.source]
    exact hu
  · rw [h.source]
    exact hg
  · rw [h.pending hq hid] at hp
    cases hp

/-! ## The sources of a tree -/

mutual

/-- The sources of a supply are among those that may be read. -/
theorem Supplies.own_of_mem {s : Store} {g : Generator} {u : Supply D} {W : List SourceId} :
    E.Supplies s g u W → ∀ id ∈ W, E.own id
  | .raw _, id, hid => nomatch hid
  | .take _ h, id, hid => h.own_of_mem id hid
  | .zip _ _ h h' _, id, hid =>
    (List.mem_append.mp hid).elim (h.own_of_mem id) (h'.own_of_mem id)

/-- So are the sources that a source stands on. -/
theorem Stands.own_of_mem {s : Store} {id : SourceId} {u : Supply D} {W : List SourceId} :
    E.Stands s id u W → ∀ id' ∈ W, E.own id'
  | .mk _ hown _ _ h _ _, id', hid =>
    (List.mem_cons.mp hid).elim (fun e => e ▸ hown) (h.own_of_mem id')

end

end Setting

end Abacus
