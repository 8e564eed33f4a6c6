import Abacus.Proofs.Sequence.Requests

/-!
# Sequences that share sources

Sequences that take from sequences form a forest over the sources that they draw on. A request moves
the sources that its sequence draws on and no others; so an element that is held outside of them,
by a sequence that draws on one of them, would be out of date without any stamp that says so. A
request is quiet if no sequence holds such an element.

**The law** (`Setting.Forest.step`): a quiet request leaves every sequence standing.
-/

namespace Abacus

/-- A source draws on itself, and on what the sequences draw on that it takes from. -/
inductive Store.Draws (s : Store) : SourceId → SourceId → Prop
  | self {id : SourceId} : Draws s id id
  | through {id id' : SourceId} {q : SequenceId} : q ∈ (s.source id).generator.references →
    Draws s (s.sequence q).source id' → Draws s id id'

namespace Setting

variable {D : Type} {E : Setting D}

/-- A generator of a stream is made of no sequences. -/
theorem At.references_eq {s : Store} {r : Nat → Except Interruption (Option D)} {k : Nat}
    {g : Generator} (h : E.At s r k g) : g.references = [] := by
  cases h <;> rfl

/-! ## The sources of a tree -/

mutual

/-- A supply stands on the sources that its generator draws on. -/
theorem Supplies.mem_iff {s : Store} {g : Generator} {u : Supply D} {W : List SourceId}
    {id : SourceId} :
    E.Supplies s g u W → (id ∈ W ↔ ∃ q ∈ g.references, s.Draws (s.sequence q).source id)
  | .raw h => by
    rw [h.references_eq]
    simp only [List.not_mem_nil, false_and, exists_false]
  | .take _ h => by
    rw [h.mem_iff]
    simp only [Generator.references, List.mem_singleton, exists_eq_left]
  | .zip _ _ h h' _ => by
    rw [List.mem_append, h.mem_iff, h'.mem_iff]
    simp only [Generator.references, List.mem_cons, List.not_mem_nil, or_false, exists_eq_or_imp,
      exists_eq_left]

/-- The sources of a tree are those that its root draws on. -/
theorem Stands.mem_iff {s : Store} {root id : SourceId} {u : Supply D} {W : List SourceId} :
    E.Stands s root u W → (id ∈ W ↔ s.Draws root id)
  | .mk _ _ _ _ h _ _ => by
    rw [List.mem_cons, h.mem_iff]
    constructor
    · rintro (rfl | ⟨q, hq, hdraws⟩)
      · exact .self
      · exact .through hq hdraws
    · intro hdraws
      cases hdraws with
      | self => exact .inl rfl
      | through hq hdraws => exact .inr ⟨_, hq, hdraws⟩

end

mutual

/-- These are the same for all states of the generator. -/
theorem Supplies.list_eq {own : SourceId → Prop} {s s' : Store} {g g' : Generator}
    {u u' : Supply D} {W W' : List SourceId} (start : E.start.Keeps E.own s) (kept : s.Keeps own s')
    (hg : g'.references = g.references) (h' : E.Supplies s' g' u' W') :
    E.Supplies s g u W → W' = W
  | .raw h => by
    rw [h.references_eq] at hg
    cases h' with
    | raw => rfl
    | take | zip => cases hg
  | .take (q := q) hq h => by
    cases h' with
    | raw h' =>
      rw [h'.references_eq] at hg
      cases hg
    | take _ h' =>
      cases hg
      rw [kept.source_eq (exists_of_kept start hq)] at h'
      exact Stands.list_eq start kept h' h
    | zip => cases hg
  | .zip hl hr h₁ h₂ _ => by
    cases h' with
    | raw h' =>
      rw [h'.references_eq] at hg
      cases hg
    | take => cases hg
    | zip _ _ h₁' h₂' _ =>
      cases hg
      rw [kept.source_eq (exists_of_kept start hl)] at h₁'
      rw [kept.source_eq (exists_of_kept start hr)] at h₂'
      rw [Stands.list_eq start kept h₁' h₁, Stands.list_eq start kept h₂' h₂]

/-- A tree has the same sources wherever it stands. -/
theorem Stands.list_eq {own : SourceId → Prop} {s s' : Store} {id : SourceId} {u u' : Supply D}
    {W W' : List SourceId} (start : E.start.Keeps E.own s) (kept : s.Keeps own s')
    (h' : E.Stands s' id u' W') : E.Stands s id u W → W' = W
  | .mk hid _ _ _ h _ _ => by
    cases h' with
    | mk _ _ _ _ h' _ _ => rw [Supplies.list_eq start kept (kept.references hid) h' h]

end

mutual

/-- Where no source has moved, the supply is the same. -/
theorem Supplies.eq_of_still {own : SourceId → Prop} {s s' : Store} {g g' : Generator}
    {u u' : Supply D} {W W' : List SourceId} {r : Nat → Except Interruption (Option D)}
    {limit n : Nat} (start : E.start.Keeps E.own s) (kept : s.Keeps own s')
    (hg : g'.references = g.references) (hu : Supply.Counted r limit n u)
    (hu' : Supply.Counted r limit n u') (h' : E.Supplies s' g' u' W') :
    E.Supplies s g u W → (∀ id ∈ W, (s'.source id).advanced = (s.source id).advanced) → u' = u
  | .raw h, _ => by
    rw [h.references_eq] at hg
    cases h' with
    | raw =>
      obtain ⟨rfl, rfl⟩ := hu
      obtain ⟨rfl, rfl⟩ := hu'
      rfl
    | take | zip => cases hg
  | .take (q := q) hq h, still => by
    cases h' with
    | raw h' =>
      rw [h'.references_eq] at hg
      cases hg
    | take _ h' =>
      cases hg
      have hlt := exists_of_kept start hq
      rw [kept.source_eq hlt] at h'
      have hcount := Nat.add_right_cancel (hu'.trans hu.symm)
      rw [Stands.eq_of_still start kept h' h still, pipe_eq kept hlt, hcount]
    | zip => cases hg
  | .zip (l := l) (r := r) hl hr h₁ h₂ _, still => by
    cases h' with
    | raw h' =>
      rw [h'.references_eq] at hg
      cases hg
    | take => cases hg
    | zip _ _ h₁' h₂' _ =>
      cases hg
      have hllt := exists_of_kept start hl
      have hrlt := exists_of_kept start hr
      rw [kept.source_eq hllt] at h₁'
      rw [kept.source_eq hrlt] at h₂'
      have hfirst := Stands.eq_of_still start kept h₁' h₁ fun id hid =>
        still id (List.mem_append_left _ hid)
      have hsecond := Stands.eq_of_still start kept h₂' h₂ fun id hid =>
        still id (List.mem_append_right _ hid)
      rw [hfirst, hsecond, pipe_eq kept hllt, pipe_eq kept hrlt]

/-- A tree has the same supply as long as nothing is consumed from its sources. -/
theorem Stands.eq_of_still {own : SourceId → Prop} {s s' : Store} {id : SourceId} {u u' : Supply D}
    {W W' : List SourceId} (start : E.start.Keeps E.own s) (kept : s.Keeps own s')
    (h' : E.Stands s' id u' W') :
    E.Stands s id u W → (∀ id ∈ W, (s'.source id).advanced = (s.source id).advanced) → u' = u
  | .mk hid _ _ counted h _ _, still => by
    cases h' with
    | mk _ _ _ counted' h' _ _ =>
      rw [still id List.mem_cons_self] at counted'
      exact Supplies.eq_of_still start kept (kept.references hid) counted counted' h' h
        fun id' hid' => still id' (List.mem_cons_of_mem _ hid')

end

/-! ## Trees whose sources have moved -/

mutual

/-- Each of the sources stands by itself. -/
theorem Supplies.sub {s : Store} {g : Generator} {u : Supply D} {W : List SourceId} :
    E.Supplies s g u W → ∀ id ∈ W, ∃ u' W', E.Stands s id u' W'
  | .raw _, id, hid => nomatch hid
  | .take _ h, id, hid => h.sub id hid
  | .zip _ _ h h' _, id, hid => (List.mem_append.mp hid).elim (h.sub id) (h'.sub id)

/-- All sources of a tree stand. -/
theorem Stands.sub {s : Store} {root : SourceId} {u : Supply D} {W : List SourceId} :
    E.Stands s root u W → ∀ id ∈ W, ∃ u' W', E.Stands s id u' W'
  | .mk hlt hown idle counted h hnot coherent, id, hid => by
    obtain rfl | hid := List.mem_cons.mp hid
    · exact ⟨_, _, .mk hlt hown idle counted h hnot coherent⟩
    · exact h.sub id hid

end

/-- Some sources have moved, all of which stand again, and no element is held by a sequence over
another source while something was consumed from a source that the sequence draws on. -/
structure Shift (E : Setting D) (V : List SourceId) (s s' : Store) : Prop where
  kept : E.start.Keeps E.own s
  keeps : s.Keeps (· ∈ V) s'
  own : ∀ id ∈ V, E.own id
  moved : ∀ id ∈ V, ∃ u W, E.Stands s' id u W
  quiet : ∀ {q v}, E.watched q → (s.sequence q).source ∉ V → s.Holds q v → ∀ id ∈ V,
    s.Draws (s.sequence q).source id → (s'.source id).advanced = (s.source id).advanced

section Moved

variable {V : List SourceId} {s s' : Store}

mutual

/-- A generator that takes from sources that have moved gives what they have now. -/
theorem Supplies.shift (shift : E.Shift V s s') {r : Nat → Except Interruption (Option D)}
    {limit n : Nat} {g : Generator} {u : Supply D} {W : List SourceId}
    (hu : Supply.Counted r limit n u) :
    E.Supplies s g u W → (∃ id ∈ W, id ∈ V) →
      ∃ u', E.Supplies s' g u' W ∧ Supply.Counted r limit n u'
  | .raw _, ⟨_, hid, _⟩ => nomatch hid
  | .take (q := q) (n := m) hq h, _ => by
    obtain ⟨u', h'⟩ := h.shift shift
    rw [← shift.keeps.source_eq (exists_of_kept shift.kept hq)] at h'
    exact ⟨.take (s'.sequence q).pipe u' m, .take hq h', hu⟩
  | .zip (l := l) (r := r) hl hr h₁ h₂ disjoint, _ => by
    obtain ⟨u', h₁'⟩ := h₁.shift shift
    obtain ⟨v', h₂'⟩ := h₂.shift shift
    rw [← shift.keeps.source_eq (exists_of_kept shift.kept hl)] at h₁'
    rw [← shift.keeps.source_eq (exists_of_kept shift.kept hr)] at h₂'
    exact ⟨.zip (s'.sequence l).pipe u' (s'.sequence r).pipe v', .zip hl hr h₁' h₂' disjoint, trivial⟩

/-- **A tree stands again after some of its sources have moved**, if no element is held that they
have left behind. -/
theorem Stands.shift (shift : E.Shift V s s') {id : SourceId} {u : Supply D} {W : List SourceId} :
    E.Stands s id u W → ∃ u', E.Stands s' id u' W
  | .mk (W := U) hlt hown idle counted h hnot coherent => by
    have hstands : E.Stands s id u (id :: U) := .mk hlt hown idle counted h hnot coherent
    by_cases hid : id ∈ V
    · obtain ⟨u', W', h'⟩ := shift.moved id hid
      obtain rfl := Stands.list_eq shift.kept shift.keeps h' hstands
      exact ⟨u', h'⟩
    have hsource := shift.keeps.source hlt hid
    by_cases hmeet : ∃ id' ∈ U, id' ∈ V
    · obtain ⟨u', h', counted'⟩ := h.shift shift counted hmeet
      refine ⟨u', .mk (Nat.lt_of_lt_of_le hlt shift.keeps.size_sources) hown ?_ ?_ ?_ hnot ?_⟩
      · rw [hsource, idle]
      · rw [hsource]
        exact counted'
      · rw [hsource]
        exact h'
      · intro q hq hqid n v hpending
        have hqlt := exists_of_kept shift.kept hq
        rw [shift.keeps.source_eq hqlt] at hqid ⊢
        subst hqid
        rw [shift.keeps.pending hqlt hid] at hpending
        obtain ⟨hle, hlive⟩ := coherent q hq rfl n v hpending
        rw [hsource]
        refine ⟨hle, fun hn => ?_⟩
        obtain ⟨d, hseek, hm⟩ := hlive hn
        -- nothing that the sequence draws on was consumed, so its supply is what it was
        have holds : s.Holds q v := by rw [Store.Holds, hpending, hn]
        have still : ∀ id' ∈ U, (s'.source id').advanced = (s.source id').advanced := by
          intro id' hid'
          by_cases hV : id' ∈ V
          · exact shift.quiet hq hid holds id' hV (hstands.mem_iff.mp (List.mem_cons_of_mem _ hid'))
          · obtain ⟨_, _, hsub⟩ := hstands.sub id' (List.mem_cons_of_mem _ hid')
            rw [shift.keeps.source hsub.lt hV]
        obtain rfl := Supplies.eq_of_still shift.kept shift.keeps rfl counted counted' h' h still
        refine ⟨d, ?_, E.reading.means_keeps (shift.keeps.mono shift.own) hm⟩
        rwa [pipe_eq shift.keeps hqlt]
    · have hnone : ∀ id' ∈ id :: U, id' ∉ V := by
        intro id' hid'
        obtain rfl | hid' := List.mem_cons.mp hid'
        · exact hid
        · exact fun hV' => hmeet ⟨id', hid', hV'⟩
      exact ⟨u, hstands.keeps shift.kept shift.keeps shift.own hnone⟩

end

end Moved

/-! ## Forests -/

/-- A request leaves behind no element that is held: a sequence over a source that the request does
not read, and that draws on one which it does read, holds an element only if nothing is consumed from
there. -/
def Quiet (E : Setting D) (q : SequenceId) (s s' : Store) : Prop :=
  ∀ {q' v}, E.watched q' → ¬ s.Draws (s.sequence q).source (s.sequence q').source → s.Holds q' v →
    ∀ id, s.Draws (s.sequence q).source id → s.Draws (s.sequence q').source id →
      (s'.source id).advanced = (s.source id).advanced

/-- Every sequence that is watched is over a source that stands. -/
structure Forest (E : Setting D) (s : Store) : Prop where
  kept : E.start.Keeps E.own s
  stands : ∀ {q}, E.watched q → ∃ u W, E.Stands s (s.sequence q).source u W

/-- **A quiet request leaves every sequence standing.** -/
theorem Forest.step {s s' : Store} {q : SequenceId} {u w : Supply D} {W : List SourceId}
    (forest : E.Forest s) (h : E.Stands s (s.sequence q).source u W)
    (left : E.Left s (s.sequence q).source w W s') (quiet : E.Quiet q s s') : E.Forest s' := by
  have shift : E.Shift W s s' := by
    refine ⟨forest.kept, left.keeps, left.stands.own_of_mem, left.stands.sub,
      fun hq hnot holds id hid hdraws => ?_⟩
    exact quiet hq (fun h' => hnot (h.mem_iff.mpr h')) holds id (h.mem_iff.mp hid) hdraws
  refine ⟨left.kept forest.kept, fun {q'} hq' => ?_⟩
  obtain ⟨v, V, h'⟩ := forest.stands hq'
  obtain ⟨v', h''⟩ := h'.shift shift
  rw [← left.keeps.source_eq (exists_of_kept forest.kept hq')] at h''
  exact ⟨v', V, h''⟩

/-- Quiet requests one after the other, each with what it returns; a call that fails does not end the
run. -/
inductive QuietRun (E : Setting D) (budget : Nat) :
    Store → List (Request × Except Interruption (Reply Value)) → Store → Prop
  | nil {s : Store} : QuietRun E budget s [] s
  | cons {s s' s'' : Store} {request : Request} {reply : Except Interruption (Reply Value)}
    {rest : List (Request × Except Interruption (Reply Value))} :
    E.watched request.sequence → request.Returns E.call budget s reply s' →
    E.Quiet request.sequence s s' → QuietRun E budget s' rest s'' →
    QuietRun E budget s ((request, reply) :: rest) s''

/-- A request that returns gives what the supply answers. -/
theorem Stands.returned {s s' : Store} {u : Supply D} {W : List SourceId} {request : Request}
    {reply : Except Interruption (Reply Value)} {budget : Nat}
    (h : E.Stands s (s.sequence request.sequence).source u W) (kept : E.start.Keeps E.own s)
    (hq : E.watched request.sequence) (returns : request.Returns E.call budget s reply s') :
    ∃ answer w, Answers E.reading (s.sequence request.sequence).pipe request u answer w ∧
      E.reading.Shows s' reply answer ∧
      E.Left s (s.sequence request.sequence).source w W s' := by
  have hout := h.answered kept hq budget
  cases returns with
  | value hres =>
    rw [hres] at hout
    cases hout with
    | value hanswer hshows left => exact ⟨_, _, hanswer, hshows, left⟩
  | interruption hres hne =>
    rw [hres] at hout
    cases hout with
    | error hanswer left => exact ⟨_, _, hanswer, .error, left⟩
    | short => exact absurd rfl hne

/-- What stands at the start stands after every run of quiet requests. -/
theorem Forest.run {s s' : Store} {budget : Nat}
    {replies : List (Request × Except Interruption (Reply Value))} (forest : E.Forest s)
    (run : E.QuietRun budget s replies s') : E.Forest s' := by
  induction run with
  | nil => exact forest
  | cons hq returns quiet _ ih =>
    obtain ⟨u, W, h⟩ := forest.stands hq
    obtain ⟨answer, w, -, -, left⟩ := h.returned forest.kept hq returns
    exact ih (forest.step h left quiet)

end Setting

end Abacus
