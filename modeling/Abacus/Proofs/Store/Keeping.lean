import Abacus.Store.Scopes

/-!
# What a change of the store keeps

Running a function may add scopes, vectors and sequences to the store. `Store.Keeps own s s'` says
that this is all that happened outside the sources in `own`: every part that `s` has is in `s'` as
it was, except that the sources in `own` may have moved on, and with them what the sequences over
those sources have looked ahead to.

`Store.Keeps` is reflexive and transitive, so what an action keeps is what its steps keep.
-/

namespace Abacus

/-- The sequences that a generator takes from, which never change. -/
def Generator.references : Generator → List SequenceId
  | .take q _ => [q]
  | .zip l r => [l, r]
  | _ => []

namespace Store

/-! ## Parts after a change -/

section Parts

variable (s : Store)

@[simp] theorem sequence_modifySource (id : SourceId) (f : Source → Source) (q : SequenceId) :
    (s.modifySource id f).sequence q = s.sequence q := rfl

@[simp] theorem vector_modifySource (id : SourceId) (f : Source → Source) (v : VectorId) :
    (s.modifySource id f).vector v = s.vector v := rfl

@[simp] theorem source_setPending (q : SequenceId) (p : Option (Nat × Value)) (id : SourceId) :
    (s.setPending q p).source id = s.source id := rfl

@[simp] theorem vector_setPending (q : SequenceId) (p : Option (Nat × Value)) (v : VectorId) :
    (s.setPending q p).vector v = s.vector v := rfl

@[simp] theorem size_sources_modifySource (id : SourceId) (f : Source → Source) :
    (s.modifySource id f).sources.size = s.sources.size := Array.size_modify ..

@[simp] theorem size_sources_setPending (q : SequenceId) (p : Option (Nat × Value)) :
    (s.setPending q p).sources.size = s.sources.size := rfl

@[simp] theorem size_sequences_modifySource (id : SourceId) (f : Source → Source) :
    (s.modifySource id f).sequences.size = s.sequences.size := rfl

@[simp] theorem size_sequences_setPending (q : SequenceId) (p : Option (Nat × Value)) :
    (s.setPending q p).sequences.size = s.sequences.size := Array.size_modify ..

variable {s}

/-- The source that is changed is changed as said. -/
theorem source_modifySource_self {id : SourceId} (h : id.index < s.sources.size)
    (f : Source → Source) : (s.modifySource id f).source id = f (s.source id) := by
  simp only [modifySource, source, Array.getD_eq_getD_getElem?, Array.getElem?_modify]
  rw [Array.getElem?_eq_getElem h]
  rfl

/-- The other sources stay as they are. -/
theorem source_modifySource_of_ne {id other : SourceId} (h : other ≠ id) (f : Source → Source) :
    (s.modifySource id f).source other = s.source other := by
  have hne : id.index ≠ other.index := fun e => h (by cases id; cases other; simp_all)
  simp only [modifySource, source, Array.getD_eq_getD_getElem?, Array.getElem?_modify, if_neg hne]

/-- The sequence looks ahead to what it is told to. -/
theorem sequence_setPending_self {q : SequenceId} (h : q.index < s.sequences.size)
    (p : Option (Nat × Value)) :
    (s.setPending q p).sequence q = { s.sequence q with pending := p } := by
  simp only [setPending, sequence, Array.getD_eq_getD_getElem?, Array.getElem?_modify]
  rw [Array.getElem?_eq_getElem h]
  rfl

/-- The other sequences stay as they are. -/
theorem sequence_setPending_of_ne {q other : SequenceId} (h : other ≠ q)
    (p : Option (Nat × Value)) : (s.setPending q p).sequence other = s.sequence other := by
  have hne : q.index ≠ other.index := fun e => h (by cases q; cases other; simp_all)
  simp only [setPending, sequence, Array.getD_eq_getD_getElem?, Array.getElem?_modify, if_neg hne]

/-- The vectors that are there stay. -/
theorem vector_addVector_of_lt (items : Array Value) {v : VectorId}
    (h : v.index < s.vectors.size) : (s.addVector items).2.vector v = s.vector v := by
  simp only [addVector, vector, Array.getD_eq_getD_getElem?, Array.getElem?_push_lt h,
    Array.getElem?_eq_getElem h]

/-- The new vector is the one that was added. -/
theorem vector_addVector_new (items : Array Value) :
    (s.addVector items).2.vector (s.addVector items).1 = items := by
  simp only [addVector, vector, Array.getD_eq_getD_getElem?, Array.getElem?_push_size,
    Option.getD_some]

/-- The sources that are there stay. -/
theorem source_addSource_of_lt (g : Generator) {id : SourceId} (h : id.index < s.sources.size) :
    (s.addSource g).2.source id = s.source id := by
  simp only [addSource, source, Array.getD_eq_getD_getElem?, Array.getElem?_push_lt h,
    Array.getElem?_eq_getElem h]

/-- A new source has given nothing and is not in use. -/
theorem source_addSource_new (g : Generator) :
    (s.addSource g).2.source ⟨s.sources.size⟩ = ⟨g, 0, false⟩ := by
  simp only [addSource, source, Array.getD_eq_getD_getElem?, Array.getElem?_push_size,
    Option.getD_some]

/-- The sequences that are there stay. -/
theorem sequence_addSequence_of_lt (new : Sequence) {q : SequenceId}
    (h : q.index < s.sequences.size) : (s.addSequence new).2.sequence q = s.sequence q := by
  simp only [addSequence, sequence, Array.getD_eq_getD_getElem?, Array.getElem?_push_lt h,
    Array.getElem?_eq_getElem h]

/-- The new sequence is the one that was added. -/
theorem sequence_addSequence_new (new : Sequence) :
    (s.addSequence new).2.sequence ⟨s.sequences.size⟩ = new := by
  simp only [addSequence, sequence, Array.getD_eq_getD_getElem?, Array.getElem?_push_size,
    Option.getD_some]

end Parts

/-! ## Keeping -/

/-- The later store has all that the earlier one has, as it was there; only the sources in `own`,
and what sequences over them have looked ahead to, may differ. -/
structure Keeps (own : SourceId → Prop) (s s' : Store) : Prop where
  size_scopes : s.scopes.size ≤ s'.scopes.size
  scope : ∀ {id : ScopeId}, id.index < s.scopes.size → s'.scope id = s.scope id
  size_vectors : s.vectors.size ≤ s'.vectors.size
  vector : ∀ {id : VectorId}, id.index < s.vectors.size → s'.vector id = s.vector id
  size_sources : s.sources.size ≤ s'.sources.size
  source : ∀ {id : SourceId}, id.index < s.sources.size → ¬ own id → s'.source id = s.source id
  references : ∀ {id : SourceId}, id.index < s.sources.size →
    (s'.source id).generator.references = (s.source id).generator.references
  size_sequences : s.sequences.size ≤ s'.sequences.size
  /-- A sequence stays over its source, with its transformers and its position. -/
  built : ∀ {q : SequenceId}, q.index < s.sequences.size →
    s'.sequence q = { s.sequence q with pending := (s'.sequence q).pending }
  pending : ∀ {q : SequenceId}, q.index < s.sequences.size → ¬ own (s.sequence q).source →
    (s'.sequence q).pending = (s.sequence q).pending
  output : s'.output = s.output

/-- Nothing that was there has changed. -/
abbrev Grows (s s' : Store) : Prop := Keeps (fun _ => False) s s'

namespace Keeps

variable {own own' : SourceId → Prop} {s s' s'' : Store}

protected theorem refl (own : SourceId → Prop) (s : Store) : Keeps own s s :=
  ⟨Nat.le_refl _, fun _ => rfl, Nat.le_refl _, fun _ => rfl, Nat.le_refl _, fun _ _ => rfl,
    fun _ => rfl, Nat.le_refl _, fun _ => rfl, fun _ _ => rfl, rfl⟩

/-- A sequence stays over its source. -/
theorem source_eq (h : Keeps own s s') {q : SequenceId} (hq : q.index < s.sequences.size) :
    (s'.sequence q).source = (s.sequence q).source := by
  rw [h.built hq]

/-- And keeps its functions. -/
theorem transformers_eq (h : Keeps own s s') {q : SequenceId} (hq : q.index < s.sequences.size) :
    (s'.sequence q).transformers = (s.sequence q).transformers := by
  rw [h.built hq]

/-- And its position. -/
theorem position_eq (h : Keeps own s s') {q : SequenceId} (hq : q.index < s.sequences.size) :
    (s'.sequence q).position = (s.sequence q).position := by
  rw [h.built hq]

protected theorem trans (h : Keeps own s s') (h' : Keeps own s' s'') : Keeps own s s'' where
  size_scopes := Nat.le_trans h.size_scopes h'.size_scopes
  scope hid := (h'.scope (Nat.lt_of_lt_of_le hid h.size_scopes)).trans (h.scope hid)
  size_vectors := Nat.le_trans h.size_vectors h'.size_vectors
  vector hid := (h'.vector (Nat.lt_of_lt_of_le hid h.size_vectors)).trans (h.vector hid)
  size_sources := Nat.le_trans h.size_sources h'.size_sources
  source hid hown := (h'.source (Nat.lt_of_lt_of_le hid h.size_sources) hown).trans (h.source hid hown)
  references hid := (h'.references (Nat.lt_of_lt_of_le hid h.size_sources)).trans (h.references hid)
  size_sequences := Nat.le_trans h.size_sequences h'.size_sequences
  built hq :=
    (h'.built (Nat.lt_of_lt_of_le hq h.size_sequences)).trans (by rw [h.built hq])
  pending {q} hq hown := by
    have hsame : ¬ own (s'.sequence q).source := by rwa [h.source_eq hq]
    exact (h'.pending (Nat.lt_of_lt_of_le hq h.size_sequences) hsame).trans (h.pending hq hown)
  output := h'.output.trans h.output

protected theorem mono (h : Keeps own s s') (hsub : ∀ id, own id → own' id) : Keeps own' s s' :=
  { h with
    source := fun hid hown => h.source hid fun ho => hown (hsub _ ho)
    pending := fun hq hown => h.pending hq fun ho => hown (hsub _ ho) }

end Keeps

/-- A store that only grows keeps everything. -/
theorem Grows.keeps {s s' : Store} (h : Grows s s') (own : SourceId → Prop) : Keeps own s s' :=
  h.mono fun _ hid => hid.elim

/-! ## The changes that reading makes -/

section Changes

variable {own : SourceId → Prop} (s : Store)

/-- A source of one's own may change, as long as it refers to the same sequences. -/
theorem keeps_modifySource {id : SourceId} (hown : own id) {f : Source → Source}
    (hf : (f (s.source id)).generator.references = (s.source id).generator.references) :
    Keeps own s (s.modifySource id f) :=
  { Keeps.refl own s with
    size_sources := Nat.le_of_eq (size_sources_modifySource s id f).symm
    source := fun _ hother => source_modifySource_of_ne (by rintro rfl; exact hother hown) f
    references := by
      intro other hlt
      by_cases h : other = id
      · subst h
        rw [source_modifySource_self hlt, hf]
      · rw [source_modifySource_of_ne h] }

/-- A sequence over a source of one's own may look ahead. -/
theorem keeps_setPending {q : SequenceId} (hown : own (s.sequence q).source)
    (p : Option (Nat × Value)) : Keeps own s (s.setPending q p) where
  size_scopes := Nat.le_refl _
  scope _ := rfl
  size_vectors := Nat.le_refl _
  vector _ := rfl
  size_sources := Nat.le_refl _
  source _ _ := rfl
  references _ := rfl
  size_sequences := Nat.le_of_eq (size_sequences_setPending s q p).symm
  built {other} hother := by
    by_cases h : other = q
    · subst h
      rw [sequence_setPending_self hother]
    · rw [sequence_setPending_of_ne h]
  pending {other} hother ho := by
    have h : other ≠ q := fun e => ho (e ▸ hown)
    rw [sequence_setPending_of_ne h]
  output := rfl

/-- A new vector makes the store grow. -/
theorem grows_addVector (items : Array Value) : Grows s (s.addVector items).2 :=
  { Keeps.refl _ s with
    size_vectors := by simp [addVector]
    vector := fun h => vector_addVector_of_lt items h }

/-- So does a new source. -/
theorem grows_addSource (g : Generator) : Grows s (s.addSource g).2 :=
  { Keeps.refl (fun _ => False) s with
    size_sources := by simp [addSource]
    source := fun h _ => source_addSource_of_lt g h
    references := fun h => by rw [source_addSource_of_lt g h]
    pending := fun _ _ => rfl }

/-- And a new sequence. -/
theorem grows_addSequence (new : Sequence) : Grows s (s.addSequence new).2 :=
  { Keeps.refl (fun _ => False) s with
    size_sequences := by simp [addSequence]
    built := fun h => by rw [sequence_addSequence_of_lt new h]
    pending := fun h _ => by rw [sequence_addSequence_of_lt new h] }

end Changes

/-! ## The changes that a call makes -/

/-- A scope that is opened is the last one. -/
theorem scope_enclose (s : Store) (scope : ScopeId) :
    (s.enclose scope).2.scope ⟨s.scopes.size⟩ = (s.scope scope).inside scope := by
  simp only [enclose, addScope, Store.scope, Array.getD_eq_getD_getElem?, Array.getElem?_push_size,
    Option.getD_some]

/-- Opening a scope and binding a name in it changes nothing that was there. -/
theorem grows_enclose_bindName (s : Store) (scope : ScopeId) (name : String) (v : Value) :
    s.Grows ((s.enclose scope).2.bindName ⟨s.scopes.size⟩ name v) :=
  { Keeps.refl _ s with
    size_scopes := by simp [enclose, addScope, bindName, modifyScope]
    scope := by
      intro id h
      have hne : s.scopes.size ≠ id.index := Nat.ne_of_gt h
      simp only [enclose, addScope, bindName, modifyScope, Store.scope, Array.getD_eq_getD_getElem?,
        Array.getElem?_modify, if_neg hne, Array.getElem?_push_lt h, Array.getElem?_eq_getElem h] }

end Store

end Abacus
