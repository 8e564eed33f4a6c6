import Abacus.Proofs.Sequence.Datum
import Abacus.Proofs.Sequence.Forest
import Mathlib.Data.List.Nodup
import Mathlib.Data.List.Perm.Subperm

/-!
# Looking and taking agree

What a sequence says about its next element is what happens: if it is not at its end, then `next`
delivers, and it delivers what `peek` shows. This holds for every sequence in a forest, where the two
sides of a pair have sources of their own, as long as no element that is held is left behind.

**The law** (`Setting.Forest.truthful`): in every state that quiet requests reach, a sequence that is
not at its end delivers the element that it shows, and a generator gives for good the element that it
gave to look at.
-/

namespace Abacus

namespace Generator

variable {call : Call} {reader reader' : Reader} {v : Value} {g : Generator} {s s' : Store}

/-- A generator that takes from no sequence gives for good what it gave to look at. -/
theorem next_again {g' : Generator} (hg : g.references = [])
    (h : g.next call reader true s = .ok (v, g') s') :
    ∃ g'', g'.next call reader' false s' = .ok (v, g'') s' := by
  cases g with
  | index f k limit cached p =>
    rw [next, atEnd_index] at h
    cases hend : limit.any (· ≤ (k : Int)) with
    | true =>
      rw [hend] at h
      cases h
    | false =>
      rw [hend] at h
      cases cached with
      | some w =>
        cases h
        exact ⟨_, congrFun (next_index_cached hend) s⟩
      | none =>
        obtain ⟨w, s₁, -, h⟩ := Action.of_bind_ok (x := call f [.ofNat k] p) h
        cases h
        exact ⟨_, congrFun (next_index_cached hend) s'⟩
  | iterate f upcoming previous p =>
    cases upcoming with
    | some w =>
      cases h
      exact ⟨_, rfl⟩
    | none =>
      cases previous with
      | some w =>
        obtain ⟨y, s₁, -, h⟩ := Action.of_bind_ok (x := call f [w] p) h
        cases h
        exact ⟨_, rfl⟩
      | none => cases h
  | range current stop step p =>
    rw [next, atEnd] at h
    cases hend : rangeAtEnd current stop step with
    | error failure =>
      rw [hend] at h
      cases h
    | ok atEnd =>
      rw [hend] at h
      cases atEnd with
      | true => cases h
      | false =>
        cases h
        refine ⟨.range (current.add step) stop step p, ?_⟩
        show next call reader' false (.range current stop step p) s = _
        rw [next, Generator.atEnd, hend]
        rfl
  | vector items k p =>
    rw [next, Action.view_bind] at h
    cases hk : (s.vector items)[k]? with
    | none =>
      rw [hk] at h
      cases h
    | some w =>
      rw [hk] at h
      cases h
      refine ⟨.vector items (k + 1) p, ?_⟩
      show next call reader' false (.vector items k p) s = _
      rw [next, Action.view_bind, hk]
      rfl
  | zip l r => cases hg
  | take q n => cases hg

end Generator

namespace Setting

variable {D : Type} {E : Setting D}

/-! ## How high a tree is -/

mutual

/-- A supply is nested less deeply than it has sources. -/
theorem Supplies.height_le {s : Store} {g : Generator} {u : Supply D} {W : List SourceId} :
    E.Supplies s g u W → u.height ≤ W.length + 1
  | .raw _ => Nat.le_refl 1
  | .take _ h => Nat.succ_le_succ h.height_le_length
  | .zip _ _ h h' _ => by
    have := h.height_le_length
    have := h'.height_le_length
    simp only [Supply.height, List.length_append]
    omega

/-- So is what a source stands on. -/
theorem Stands.height_le_length {s : Store} {id : SourceId} {u : Supply D} {W : List SourceId} :
    E.Stands s id u W → u.height ≤ W.length
  | .mk _ _ _ _ h _ _ => h.height_le

end

mutual

/-- No source supplies twice. -/
theorem Supplies.nodup {s : Store} {g : Generator} {u : Supply D} {W : List SourceId} :
    E.Supplies s g u W → W.Nodup
  | .raw _ => List.nodup_nil
  | .take _ h => h.nodup
  | .zip _ _ h h' disjoint =>
    List.nodup_append.mpr ⟨h.nodup, h'.nodup, fun _ hid _ hid' e => disjoint _ hid (e ▸ hid')⟩

/-- Nor does a source stand on another twice. -/
theorem Stands.nodup {s : Store} {id : SourceId} {u : Supply D} {W : List SourceId} :
    E.Stands s id u W → W.Nodup
  | .mk _ _ _ _ h hnot _ => List.nodup_cons.mpr ⟨hnot, h.nodup⟩

end

/-- A tree is at most as high as there are sources. -/
theorem Stands.height_le {s : Store} {id : SourceId} {u : Supply D} {W : List SourceId}
    (h : E.Stands s id u W) : u.height ≤ s.sources.size := by
  have hinjective : Function.Injective SourceId.index := by
    rintro ⟨a⟩ ⟨b⟩ rfl
    rfl
  have hsubset : W.map SourceId.index ⊆ List.range s.sources.size := by
    intro i hi
    obtain ⟨id', hid', rfl⟩ := List.mem_map.mp hi
    obtain ⟨_, _, h'⟩ := h.sub id' hid'
    exact List.mem_range.mpr h'.lt
  have hlength := ((List.Nodup.map hinjective h.nodup).subperm hsubset).length_le
  rw [List.length_map, List.length_range] at hlength
  exact Nat.le_trans h.height_le_length hlength

/-! ## Looking, then taking -/

section Taking

variable {s s' : Store} {u : Supply D} {W : List SourceId} {q : SequenceId}

/-- A look through a reader leaves the element held that it shows. -/
theorem Stands.shown (h : E.Stands s (s.sequence q).source u W) (kept : E.start.Keeps E.own s)
    (hq : E.watched q) {v : Value} {n : Nat}
    (hnext : (Reader.ofDepth E.call n).next q true s = .ok v s') :
    ∃ x w, Seeks E.reading (s.sequence q).pipe u (.ok (some x)) w ∧ E.reading.means s' v x ∧
      E.Left s (s.sequence q).source w W s' ∧ s'.Holds q v := by
  cases n with
  | zero => cases hnext
  | succ n =>
    have hout := lookahead_outcome (E.reads n u.height) hq kept h (Nat.le_refl _)
    generalize hres : Sequence.lookahead _ _ _ q s = res at hout
    cases hout with
    | found hseek hfound =>
      cases hnext.symm.trans (Sequence.peek_some hres)
      exact ⟨_, _, hseek, hfound⟩
    | ended => cases hnext.symm.trans (Sequence.peek_none hres)
    | failed | short => cases hnext.symm.trans (Sequence.peek_error hres)

/-- A reader gives for good what a sequence holds, if it reaches as far as supplies are nested. -/
theorem Stands.taken (h : E.Stands s (s.sequence q).source u W) (kept : E.start.Keeps E.own s)
    (hq : E.watched q) {v : Value} (holds : s.Holds q v) {m : Nat} (hm : u.height < m) :
    ∃ w s', (Reader.ofDepth E.call m).next q false s = .ok v s' ∧
      E.Left s (s.sequence q).source w W s' := by
  obtain ⟨m, rfl⟩ : ∃ k, m = k + 1 := ⟨m - 1, by omega⟩
  obtain ⟨s', hnext, left⟩ | ⟨s', -, hshort⟩ :=
    reader_next (E.reads m u.height) hq kept h (Nat.le_refl _) holds false
  · exact ⟨_, s', hnext, left⟩
  · omega

/-- **A sequence that is not at its end delivers the element that it shows.** -/
theorem Stands.delivers_shown (h : E.Stands s (s.sequence q).source u W) (kept : E.start.Keeps E.own s)
    (hq : E.watched q) {n : Nat}
    (hatEnd : Sequence.atEnd E.call (.ofDepth E.call n) n q s = .ok false s') :
    ∃ v, (∀ call reader fuel p, Sequence.peek call reader fuel q p s' = .ok v s') ∧
      ∀ m p, s'.sources.size ≤ m →
        ∃ s'', Sequence.next E.call (.ofDepth E.call m) m q p s' = .ok v s'' := by
  have hout := lookahead_outcome (E.reads n u.height) hq kept h (Nat.le_refl _)
  generalize hres : Sequence.lookahead _ _ _ q s = res at hout
  cases hout with
  | @found x w v s₁ _ hfound =>
    obtain ⟨-, left, holds⟩ := hfound
    cases hatEnd.symm.trans (Sequence.atEnd_ok hres)
    refine ⟨v, fun call reader fuel p => Sequence.peek_some (Sequence.lookahead_of_holds holds),
      fun m p hm => ?_⟩
    have hsource := left.keeps.source_eq (exists_of_kept kept hq)
    obtain ⟨s'', hnext, -⟩ | ⟨s'', -, hshort⟩ :=
      next_of_holds (E.reads m w.height) hq (left.kept kept) (by rw [hsource]; exact left.stands)
        (Nat.le_refl _) holds m p
    · exact ⟨s'', hnext⟩
    · have := left.stands.height_le
      omega
  | ended => cases hatEnd.symm.trans (Sequence.atEnd_ok hres)
  | failed | short => cases hatEnd.symm.trans (Sequence.atEnd_error hres)

/-- A generator that takes from a sequence gives for good what it gave to look at. -/
theorem take_again (h : E.Stands s (s.sequence q).source u W) (kept : E.start.Keeps E.own s)
    (hq : E.watched q) {v : Value} {g : Generator} {n k : Nat}
    (hnext : (Generator.take q k).next E.call (.ofDepth E.call n) true s = .ok (v, g) s') {m : Nat}
    (hm : u.height < m) :
    ∃ g' s'', g.next E.call (.ofDepth E.call m) false s' = .ok (v, g') s'' := by
  rw [Generator.next] at hnext
  by_cases hk : k = 0
  · rw [if_pos hk] at hnext
    cases hnext
  · rw [if_neg hk] at hnext
    obtain ⟨w, s₁, hshow, hnext⟩ := Action.of_bind_ok hnext
    cases hnext
    obtain ⟨_, w', hseek, -, left, holds⟩ := h.shown kept hq hshow
    have hheight := hseek.height_eq
    have hsource := left.keeps.source_eq (exists_of_kept kept hq)
    obtain ⟨_, s₂, htake, -⟩ := Stands.taken (u := w') (by rw [hsource]; exact left.stands)
      (left.kept kept) hq holds (m := m) (by omega)
    refine ⟨.take q (k - 1), s₂, ?_⟩
    show (Generator.take q k).next E.call _ false s' = _
    rw [Generator.next, if_neg hk]
    show ((Reader.ofDepth E.call m).next q false >>= _) s' = _
    rw [Action.bind_ok htake]
    rfl

end Taking

/-- Two values are alike if they are the same, or two vectors with the same elements. -/
def Alike (s : Store) (v w : Value) : Prop :=
  v = w ∨ ∃ a b, v = .vector a ∧ w = .vector b ∧ s.vector a = s.vector b

/-- A generator of pairs gives for good a pair like the one that it gave to look at. -/
theorem zip_again {s s' : Store} {u v : Supply D} {W V : List SourceId} {l r : SequenceId}
    (kept : E.start.Keeps E.own s) (hl : E.watched l) (hr : E.watched r)
    (hfirst : E.Stands s (s.sequence l).source u W) (hsecond : E.Stands s (s.sequence r).source v V)
    (disjoint : ∀ id ∈ W, id ∉ V) {pair : Value} {g : Generator} {n : Nat}
    (hnext : (Generator.zip l r).next E.call (.ofDepth E.call n) true s = .ok (pair, g) s') {m : Nat}
    (hm : max u.height v.height < m) :
    ∃ pair' g' s'', g.next E.call (.ofDepth E.call m) false s' = .ok (pair', g') s'' ∧
      Alike s'' pair pair' := by
  obtain ⟨a, s₁, hshow, hnext⟩ := Action.of_bind_ok hnext
  obtain ⟨b, s₂, hshow₁, hnext⟩ := Action.of_bind_ok hnext
  cases hnext
  have h : E.Sides s (s.sequence l).source (s.sequence r).source u v W V s :=
    ⟨hfirst, hsecond, .refl _ _⟩
  obtain ⟨x, w, hseek, hx, left, ha⟩ := hfirst.shown kept hl hshow
  have hheight := hseek.height_eq
  have h₁ := h.read_first kept disjoint left
  have hrsource := h₁.keeps.source_eq (exists_of_kept kept hr)
  obtain ⟨y, z, hseek₁, hy, right, hb⟩ :=
    Stands.shown (u := v) (by rw [hrsource]; exact h₁.second) (h₁.kept kept) hr hshow₁
  have hheight₁ := hseek₁.height_eq
  rw [hrsource] at right
  have h₂ := h₁.read_second kept disjoint right
  have ha₂ := h₁.holds_first kept hl disjoint ha right.keeps
  -- the pair that was shown is a new vector, which disturbs nothing
  have grown := Store.grows_addVector s₂ #[a, b]
  have h₃ := h₂.grow kept grown
  have hlsource₂ := h₂.keeps.source_eq (exists_of_kept kept hl)
  have hrsource₂ := h₂.keeps.source_eq (exists_of_kept kept hr)
  have ha₃ := ha₂.keeps grown (exists_of_kept (h₂.kept kept) hl)
    (by rw [hlsource₂]; exact h₂.first.lt) id
  have hb₃ := hb.keeps grown (exists_of_kept (h₂.kept kept) hr)
    (by rw [hrsource₂]; exact h₂.second.lt) id
  have hx₃ := E.reading.means_keeps (right.keeps.mono right.stands.own_of_mem |>.trans
    (grown.keeps _)) hx
  have hy₃ := E.reading.means_keeps (grown.keeps _) hy
  obtain ⟨m, rfl⟩ : ∃ k, m = k + 1 := ⟨m - 1, by omega⟩
  have hstart : E.Sides (s₂.addVector #[a, b]).2 (s₂.sequence l).source (s₂.sequence r).source w z
      W V (s₂.addVector #[a, b]).2 := by
    rw [hlsource₂, hrsource₂]
    exact ⟨h₃.first, h₃.second, .refl _ _⟩
  have hdeliver := deliver_pair (E.reads m (max u.height v.height)) hl hr (h₃.kept kept) disjoint
    hstart (by rw [hheight]; exact Nat.le_max_left _ _) (by rw [hheight₁]; exact Nat.le_max_right _ _)
    ha₃ hb₃ hx₃ hy₃ false
  obtain ⟨id, s₄, hres, h₄, hitems, -⟩ | ⟨s₄, -, hshort⟩ := hdeliver
  · refine ⟨.vector id, .zip l r, s₄, ?_, .inr ⟨_, id, rfl, rfl, ?_⟩⟩
    · have hpair : (Generator.zip l r).next E.call (.ofDepth E.call (m + 1)) false =
          ((Reader.ofDepth E.call (m + 1)).pair false l r >>= fun pair => pure (pair, .zip l r)) := by
        rw [Generator.next, Reader.pair]
        simp only [bind_assoc]
      rw [hpair, Action.bind_ok hres]
      rfl
    · have hold : (s₂.addVector #[a, b]).1.index < (s₂.addVector #[a, b]).2.vectors.size := by
        simp only [Store.addVector, Array.size_push, Nat.lt_succ_self]
      rw [hitems]
      exact (h₄.keeps.vector hold).trans (Store.vector_addVector_new #[a, b])
  · rw [hheight, hheight₁] at hshort
    omega

/-- **A generator gives for good the element that it gave to look at.** -/
theorem Stands.gives_again {s s' : Store} {id : SourceId} {u : Supply D} {W : List SourceId}
    (h : E.Stands s id u W) (kept : E.start.Keeps E.own s) {n : Nat} {v : Value} {g : Generator}
    (hnext : (s.source id).generator.next E.call (.ofDepth E.call n) true s = .ok (v, g) s') {m : Nat}
    (hm : s.sources.size ≤ m) :
    ∃ w g' s'', g.next E.call (.ofDepth E.call m) false s' = .ok (w, g') s'' ∧ Alike s'' v w := by
  have hheight := h.height_le
  cases h with
  | mk _ _ _ _ hg _ _ =>
    generalize (s.source id).generator = g₀ at hg hnext
    cases hg with
    | raw hat =>
      obtain ⟨g', hagain⟩ := Generator.next_again hat.references_eq hnext
      exact ⟨v, g', s', hagain, .inl rfl⟩
    | take hq hstands =>
      simp only [Supply.height] at hheight
      obtain ⟨g', s'', hagain⟩ := take_again hstands kept hq hnext (m := m) (by omega)
      exact ⟨v, g', s'', hagain, .inl rfl⟩
    | zip hl hr hfirst hsecond disjoint =>
      simp only [Supply.height] at hheight
      exact zip_again kept hl hr hfirst hsecond disjoint hnext (by omega)

/-- **Looking and taking agree** in every state that quiet requests reach: a sequence that is not at
its end delivers the element that it shows, and a generator gives for good what it gave to look at.
In other states, too, nothing else is delivered than the element that is held; it is delivered exactly
if the source can be read for good. -/
theorem Forest.truthful {budget : Nat} {s : Store}
    {replies : List (Request × Except Interruption (Reply Value))}
    (forest : E.Forest E.start) (run : E.QuietRun budget E.start replies s)
    {q : SequenceId} (hq : E.watched q) :
    (∀ n s', Sequence.atEnd E.call (.ofDepth E.call n) n q s = .ok false s' →
      ∃ v, (∀ call reader fuel p, Sequence.peek call reader fuel q p s' = .ok v s') ∧
        ∀ m p, s'.sources.size ≤ m →
          ∃ s'', Sequence.next E.call (.ofDepth E.call m) m q p s' = .ok v s'') ∧
    (∀ id, s.Draws (s.sequence q).source id → ∀ n v g s',
      (s.source id).generator.next E.call (.ofDepth E.call n) true s = .ok (v, g) s' →
      ∀ m, s.sources.size ≤ m → ∃ w g' s'',
        g.next E.call (.ofDepth E.call m) false s' = .ok (w, g') s'' ∧ Alike s'' v w) ∧
    ∀ (t : Store) (q : SequenceId) (v : Value), t.Holds q v → ∀ call reader fuel p,
      Sequence.peek call reader fuel q p t = .ok v t ∧
      (∀ w t', Sequence.next call reader fuel q p t = .ok w t' → w = v) ∧
      ((∃ t', Sequence.next call reader fuel q p t = .ok v t') ↔
        ∃ o t', Sequence.raw call reader false (t.sequence q).source (t.sequence q).position t =
          .ok o t') := by
  have reached := forest.run run
  obtain ⟨u, W, h⟩ := reached.stands hq
  refine ⟨fun n s' hatEnd => h.delivers_shown reached.kept hq hatEnd,
    fun id hdraws n v g s' hnext m hm => ?_, fun t q v holds call reader fuel p => ?_⟩
  · obtain ⟨u', W', h'⟩ := h.sub id (h.mem_iff.mpr hdraws)
    exact h'.gives_again reached.kept hnext hm
  · exact ⟨Sequence.peek_some (Sequence.lookahead_of_holds holds),
      fun w t' hnext => Sequence.next_of_holds_eq holds hnext, Sequence.next_of_holds_iff holds⟩

end Setting

/-- The pairs of the first two elements of `range(0, 3)` with the elements of `range(7, 9)`. -/
def takenPairs : Setting Datum where
  own id := id.index < 4
  reading := Datum.reading _
  stream id j :=
    if id = ⟨0⟩ then (Datum.reading (·.index < 4)).rangeElement
      ((Number.integer 0).afterSteps (.integer 1) j) (.integer 3) (.integer 1) .start
    else (Datum.reading (·.index < 4)).rangeElement
      ((Number.integer 7).afterSteps (.integer 1) j) (.integer 9) (.integer 1) .start
  limit _ := 2
  call := Action.apply 1
  start := .withSources
    #[⟨.range (.integer 0) (.integer 3) (.integer 1) .start, 0, false⟩,
      ⟨.range (.integer 7) (.integer 9) (.integer 1) .start, 0, false⟩, ⟨.take ⟨0⟩ 2, 0, false⟩,
      ⟨.zip ⟨2⟩ ⟨1⟩, 0, false⟩]
    #[⟨⟨0⟩, [], none, .start⟩, ⟨⟨1⟩, [], none, .start⟩, ⟨⟨2⟩, [], none, .start⟩,
      ⟨⟨3⟩, [], none, .start⟩]
  watched q := q = ⟨0⟩ ∨ q = ⟨1⟩ ∨ q = ⟨2⟩ ∨ q = ⟨3⟩
  exists_of_watched := by
    rintro q (rfl | rfl | rfl | rfl) <;> decide
  free_of_watched := by
    rintro q (rfl | rfl | rfl | rfl) t ht <;> cases ht

/-- After the first of the two elements was consumed, the pairs are not at their end, and deliver the
pair that they show. -/
theorem takenPairs_truthful :
    ∃ s s' v s'', (Request.next ⟨2⟩ .start).perform takenPairs.call 8 takenPairs.start =
        .ok (.element (.number (.integer 0))) s ∧
      Sequence.atEnd takenPairs.call (.ofDepth takenPairs.call 8) 8 ⟨3⟩ s = .ok false s' ∧
      Sequence.peek takenPairs.call (.ofDepth takenPairs.call 8) 8 ⟨3⟩ .start s' = .ok v s' ∧
      Sequence.next takenPairs.call (.ofDepth takenPairs.call 8) 8 ⟨3⟩ .start s' = .ok v s'' := by
  have unread : ∀ {id g}, id.index < 4 → takenPairs.start.source id = ⟨g, 0, false⟩ →
      takenPairs.Unread id g := by
    refine fun hlt h => ⟨hlt, hlt, h, ?_⟩
    rintro q (rfl | rfl | rfl | rfl) - <;> rfl
  have at₀ : takenPairs.At takenPairs.start (takenPairs.stream ⟨0⟩) 0
      (.range (.integer 0) (.integer 3) (.integer 1) .start) := .range fun _ => rfl
  have at₁ : takenPairs.At takenPairs.start (takenPairs.stream ⟨1⟩) 0
      (.range (.integer 7) (.integer 9) (.integer 1) .start) := .range fun _ => rfl
  have h₀ : takenPairs.Stands takenPairs.start ⟨0⟩ (.raw (takenPairs.stream ⟨0⟩) 0) [⟨0⟩] :=
    (unread (by decide) rfl).stands (.raw at₀) ⟨rfl, rfl⟩ List.not_mem_nil
  have h₁ : takenPairs.Stands takenPairs.start ⟨1⟩ (.raw (takenPairs.stream ⟨1⟩) 0) [⟨1⟩] :=
    (unread (by decide) rfl).stands (.raw at₁) ⟨rfl, rfl⟩ List.not_mem_nil
  have takes : takenPairs.Supplies takenPairs.start (.take ⟨0⟩ 2) _ [⟨0⟩] := .take (.inl rfl) h₀
  have h₂ : takenPairs.Stands takenPairs.start ⟨2⟩ _ [⟨2⟩, ⟨0⟩] :=
    (unread (by decide) rfl).stands takes rfl (by decide)
  have pairs : takenPairs.Supplies takenPairs.start (.zip ⟨2⟩ ⟨1⟩) _ ([⟨2⟩, ⟨0⟩] ++ [⟨1⟩]) :=
    .zip (.inr (.inr (.inl rfl))) (.inr (.inl rfl)) h₂ h₁ (by decide)
  have h₃ : takenPairs.Stands takenPairs.start ⟨3⟩ _ [⟨3⟩, ⟨2⟩, ⟨0⟩, ⟨1⟩] :=
    (unread (by decide) rfl).stands pairs trivial (by decide)
  have forest : takenPairs.Forest takenPairs.start := by
    refine ⟨.refl _ _, ?_⟩
    rintro q (rfl | rfl | rfl | rfl)
    · exact ⟨_, _, h₀⟩
    · exact ⟨_, _, h₁⟩
    · exact ⟨_, _, h₂⟩
    · exact ⟨_, _, h₃⟩
  have quiet : ∀ {q s}, takenPairs.Quiet q takenPairs.start s := by
    rintro q s q' v (rfl | rfl | rfl | rfl) - holds <;> cases holds
  obtain ⟨s, hs⟩ : ∃ s, (Request.next ⟨2⟩ .start).perform takenPairs.call 8 takenPairs.start =
      .ok (.element (.number (.integer 0))) s := ⟨_, rfl⟩
  have run : takenPairs.QuietRun 8 takenPairs.start
      [(.next ⟨2⟩ .start, .ok (.element (.number (.integer 0))))] s :=
    .cons (.inr (.inr (.inl rfl))) (.value hs) quiet .nil
  cases hs
  obtain ⟨v, hpeek, hnext⟩ := (Setting.Forest.truthful forest run (q := ⟨3⟩)
    (.inr (.inr (.inr rfl)))).1 8 _ rfl
  obtain ⟨s'', hnext⟩ := hnext 8 .start (by decide)
  exact ⟨_, _, v, s'', rfl, rfl, hpeek _ _ _ _, hnext⟩

namespace Setting

variable {D : Type} {E : Setting D}

/-! ## Sides that share a source -/

/-- **A pair of a sequence with itself can be looked at but not taken** if the sequence has one
element left: the first side takes the element that the second one showed. -/
theorem pair_with_itself {s : Store} {u w : Supply D} {W : List SourceId} {q : SequenceId} {v : Value}
    (h : E.Stands s (s.sequence q).source u W) (kept : E.start.Keeps E.own s) (hq : E.watched q)
    (holds : s.Holds q v) (last : Seeks E.reading (s.sequence q).pipe u.drop (.ok none) w) (n : Nat) :
    (Reader.ofDepth E.call (n + 1)).pair true q q s =
        .ok (.vector ⟨s.vectors.size⟩) (s.addVector #[v, v]).2 ∧
      ∀ pair s', (Reader.ofDepth E.call (n + 1)).pair false q q s ≠ .ok pair s' := by
  have hshown : (Reader.ofDepth E.call (n + 1)).next q true s = .ok v s :=
    Sequence.peek_some (Sequence.lookahead_of_holds holds)
  refine ⟨(Action.bind_ok hshown _).trans (Action.bind_ok hshown _), fun pair s' hpair => ?_⟩
  obtain ⟨a, s₁, hfirst, hpair⟩ := Action.of_bind_ok hpair
  obtain ⟨b, s₂, hsecond, -⟩ := Action.of_bind_ok hpair
  obtain ⟨s₁', hfirst', left⟩ | ⟨s₁', hfirst', -⟩ :=
    reader_next (E.reads n u.height) hq kept h (Nat.le_refl _) holds false
  · cases hfirst.symm.trans hfirst'
    have hlt := exists_of_kept kept hq
    have hsource := left.keeps.source_eq hlt
    have hout := lookahead_outcome (E.reads n u.drop.height) hq (left.kept kept) (u := u.drop)
      (by rw [hsource]; exact left.stands) (Nat.le_refl _)
    simp only [Looked, pipe_eq left.keeps hlt] at hout
    have hnext : Sequence.next E.call (.ofDepth E.call n) n q (s₁.sequence q).position s₁ =
        .ok b s₂ := hsecond
    generalize hres : Sequence.lookahead _ _ _ q s₁ = res at hout
    cases hout with
    | found hseek => cases (hseek.unique last).1
    | ended => cases hnext.symm.trans (Sequence.next_none hres)
    | failed | short => cases hnext.symm.trans (Sequence.next_error hres)
  · cases hfirst.symm.trans hfirst'

end Setting

/-- `range(0, 1)`, and the pairs of it with itself. -/
def sharedSides : Store :=
  .withSources
    #[⟨.range (.integer 0) (.integer 1) (.integer 1) .start, 0, false⟩, ⟨.zip ⟨0⟩ ⟨0⟩, 0, false⟩]
    #[⟨⟨0⟩, [], none, .start⟩, ⟨⟨1⟩, [], none, .start⟩]

/-- The pairs of `range(0, 1)` with itself are not at their end, and show a pair, but deliver none. -/
theorem shared_sides_not_truthful :
    (∃ s, Sequence.create (.range (.integer 0) (.integer 1) (.integer 1) .start) .start
        (.withSources #[] #[]) = .ok (.sequence ⟨0⟩) s ∧
      Sequence.create (.zip ⟨0⟩ ⟨0⟩) .start s = .ok (.sequence ⟨1⟩) sharedSides) ∧
    ∃ s v s', Sequence.atEnd (Action.apply 1) (.ofDepth (Action.apply 1) 4) 4 ⟨1⟩ sharedSides =
        .ok false s ∧
      Sequence.peek (Action.apply 1) (.ofDepth (Action.apply 1) 4) 4 ⟨1⟩ .start s = .ok v s ∧
      Sequence.next (Action.apply 1) (.ofDepth (Action.apply 1) 4) 4 ⟨1⟩ .start s =
        .error (.fault ⟨.exhausted, .start⟩) s' :=
  ⟨⟨_, rfl, rfl⟩, _, _, _, rfl, rfl, rfl⟩

end Abacus
