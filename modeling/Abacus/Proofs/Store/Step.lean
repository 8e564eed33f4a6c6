import Abacus.Proofs.Store.Bindings
import Abacus.Proofs.Store.Keeping
import Abacus.Store.Vectors
import Mathlib.Logic.Relation

/-!
# What a program can do to the store

Everything that a running program does to the store is one of a few single changes, one after the
other. `Store.Step` lists them, each with what a program makes sure of before it. What every step
keeps holds at every moment of a run, however the run ends.

A step may bind a name that is new in a scope only if the scope is one of the `free` ones.

**The law** (`Store.Path.sound`): no step leaves a reference to a part that the store does not have.
-/

namespace Abacus

/-! ## References -/

/-- A value refers only to parts that the store has. -/
def Value.Fits (s : Store) : Value → Prop
  | .vector id => id.index < s.vectors.size
  | .sequence id => id.index < s.sequences.size
  | .function closure => closure.scope.index < s.scopes.size
  | _ => True

/-- The function of a transformer is what the store has. -/
def Transformer.Fits (s : Store) : Transformer → Prop
  | .map f | .filter f => f.Fits s

/-- A generator refers only to parts that the store has. -/
def Generator.Fits (s : Store) : Generator → Prop
  | .index f _ _ cached _ => f.Fits s ∧ ∀ v ∈ cached, v.Fits s
  | .iterate f upcoming previous _ =>
    f.Fits s ∧ (∀ v ∈ upcoming, v.Fits s) ∧ ∀ v ∈ previous, v.Fits s
  | .range .. => True
  | .vector items _ _ => items.index < s.vectors.size
  | .zip left right => left.index < s.sequences.size ∧ right.index < s.sequences.size
  | .take sequence _ => sequence.index < s.sequences.size

/-- All that a scope binds is what the store has. -/
def Scope.Fits (s : Store) (scope : Scope) : Prop := ∀ binding ∈ scope.bindings, binding.2.Fits s

/-- A sequence is over a source of the store, and its functions and the value it looked ahead to are
what the store has. -/
structure Sequence.Fits (s : Store) (q : Sequence) : Prop where
  source : q.source.index < s.sources.size
  transformers : ∀ t ∈ q.transformers, t.Fits s
  pending : ∀ found ∈ q.pending, found.2.Fits s

namespace Store

/-- No part of the store refers to one that the store does not have. -/
structure Sound (s : Store) : Prop where
  scopes : ∀ scope ∈ s.scopes, scope.Fits s
  vectors : ∀ items ∈ s.vectors, ∀ v ∈ items, v.Fits s
  sources : ∀ source ∈ s.sources, source.generator.Fits s
  sequences : ∀ q ∈ s.sequences, q.Fits s

/-- The later store has all the parts of the earlier one. -/
structure Grown (s s' : Store) : Prop where
  scopes : s.scopes.size ≤ s'.scopes.size
  vectors : s.vectors.size ≤ s'.vectors.size
  sources : s.sources.size ≤ s'.sources.size
  sequences : s.sequences.size ≤ s'.sequences.size

protected theorem Grown.refl (s : Store) : Grown s s :=
  ⟨Nat.le_refl _, Nat.le_refl _, Nat.le_refl _, Nat.le_refl _⟩

protected theorem Grown.trans {s s' s'' : Store} (h : Grown s s') (h' : Grown s' s'') :
    Grown s s'' :=
  ⟨Nat.le_trans h.scopes h'.scopes, Nat.le_trans h.vectors h'.vectors,
    Nat.le_trans h.sources h'.sources, Nat.le_trans h.sequences h'.sequences⟩

end Store

/-! ## References stay good -/

section Grown

variable {s s' : Store}

/-- What fits a store fits it when it has grown. -/
theorem Value.Fits.grown {v : Value} (h : v.Fits s) (grown : s.Grown s') : v.Fits s' := by
  cases v with
  | vector id => exact Nat.lt_of_lt_of_le h grown.vectors
  | sequence id => exact Nat.lt_of_lt_of_le h grown.sequences
  | function closure => exact Nat.lt_of_lt_of_le h grown.scopes
  | _ => trivial

/-- So does a transformer. -/
theorem Transformer.Fits.grown {t : Transformer} (h : t.Fits s) (grown : s.Grown s') : t.Fits s' := by
  cases t <;> exact Value.Fits.grown h grown

/-- And a generator. -/
theorem Generator.Fits.grown {g : Generator} (h : g.Fits s) (grown : s.Grown s') : g.Fits s' := by
  cases g with
  | index f place limit cached position => exact ⟨h.1.grown grown, fun v hv => (h.2 v hv).grown grown⟩
  | iterate f upcoming previous position =>
    obtain ⟨hf, hupcoming, hprevious⟩ := h
    exact ⟨hf.grown grown, fun v hv => (hupcoming v hv).grown grown,
      fun v hv => (hprevious v hv).grown grown⟩
  | range current stop step position => trivial
  | vector items place position => exact Nat.lt_of_lt_of_le h grown.vectors
  | zip left right =>
    exact ⟨Nat.lt_of_lt_of_le h.1 grown.sequences, Nat.lt_of_lt_of_le h.2 grown.sequences⟩
  | take sequence remaining => exact Nat.lt_of_lt_of_le h grown.sequences

/-- And a scope. -/
theorem Scope.Fits.grown {scope : Scope} (h : scope.Fits s) (grown : s.Grown s') : scope.Fits s' :=
  fun binding hb => (h binding hb).grown grown

/-- And a sequence. -/
theorem Sequence.Fits.grown {q : Sequence} (h : q.Fits s) (grown : s.Grown s') : q.Fits s' where
  source := Nat.lt_of_lt_of_le h.source grown.sources
  transformers t ht := (h.transformers t ht).grown grown
  pending found hf := (h.pending found hf).grown grown

end Grown

/-! ## Reading parts -/

/-- What is found at a place is one of the parts, or what stands for a part that there is not. -/
theorem Store.kept_or_absent {α : Type} (parts : Array α) (place : Nat) (absent : α) :
    parts.getD place absent ∈ parts ∨ parts.getD place absent = absent := by
  by_cases h : place < parts.size
  · exact .inl (by simp [Array.getD, h])
  · exact .inr (by simp [Array.getD, h])

/-- What a scope binds to a name is one of the bindings of the store. -/
theorem Store.exists_of_get? {s : Store} {id : ScopeId} {name : String} {v : Value}
    (h : (s.scope id).get? name = some v) : ∃ scope ∈ s.scopes, (name, v) ∈ scope.bindings := by
  obtain ⟨before, after, hbindings, -⟩ := List.lookup_eq_some_iff.mp h
  have hmem : (name, v) ∈ (s.scope id).bindings :=
    hbindings ▸ List.mem_append_right before List.mem_cons_self
  rcases kept_or_absent s.scopes id.index ⟨[], [], []⟩ with hkept | habsent
  · exact ⟨_, hkept, hmem⟩
  · rw [scope, habsent] at hmem
    cases hmem

/-- A name that the store has not handed out stands for a scope without names. -/
theorem Store.scope_of_le {s : Store} {id : ScopeId} (h : s.scopes.size ≤ id.index) :
    s.scope id = ⟨[], [], []⟩ := by
  rw [scope, Array.getD_eq_getD_getElem?, Array.getElem?_eq_none h, Option.getD_none]

namespace Store.Sound

variable {s : Store} (sound : s.Sound)

include sound

/-- What a name stands for is what the store has. -/
theorem binding {id : ScopeId} {name : String} {v : Value} (h : (s.scope id).get? name = some v) :
    v.Fits s := by
  obtain ⟨scope, hscope, hmem⟩ := exists_of_get? h
  exact sound.scopes scope hscope _ hmem

/-- So are the elements of a vector. -/
theorem elements {id : VectorId} {v : Value} (h : v ∈ s.vector id) : v.Fits s := by
  rcases kept_or_absent s.vectors id.index #[] with hkept | habsent
  · exact sound.vectors _ hkept _ h
  · rw [vector, habsent] at h
    simp at h

/-- And what a source generates from. -/
theorem generator {id : SourceId} (hid : id.index < s.sources.size) :
    (s.source id).generator.Fits s := by
  rw [source, Array.getD_eq_getD_getElem?, Array.getElem?_eq_getElem hid, Option.getD_some]
  exact sound.sources _ (Array.getElem_mem hid)

/-- And what a sequence refers to. -/
theorem sequence {id : SequenceId} (hid : id.index < s.sequences.size) : (s.sequence id).Fits s := by
  rw [Store.sequence, Array.getD_eq_getD_getElem?, Array.getElem?_eq_getElem hid, Option.getD_some]
  exact sound.sequences _ (Array.getElem_mem hid)

end Store.Sound

namespace Store

/-! ## Steps -/

/-- A single change that a program makes. -/
inductive Step (free : ScopeId → Prop) : Store → Store → Prop
  /-- A scope is opened inside one that is there. -/
  | enclose {s : Store} {id : ScopeId} : id.index < s.scopes.size → Step free s (s.enclose id).2
  /-- A name is bound where an assignment in a free scope binds it. -/
  | bind {s : Store} {here place : ScopeId} {name : String} {value : Value} {isLocal : Bool} :
    free here → here.index < s.scopes.size → value.Fits s →
      s.assignPlace here name isLocal = .ok place → Step free s (s.bindName place name value)
  | addVector {s : Store} {items : Array Value} : (∀ v ∈ items, v.Fits s) →
    Step free s (s.addVector items).2
  /-- An element is replaced, and the vector does not come to hold itself. -/
  | setElement {s : Store} {id : VectorId} {index : Nat} {value : Value} : value.Fits s →
    s.reaches value id = false → Step free s (s.setElement id index value)
  | addSource {s : Store} {generator : Generator} : generator.Fits s →
    Step free s (s.addSource generator).2
  /-- A source is closed while its generator is at work, and opened again. -/
  | hold {s : Store} {id : SourceId} {busy : Bool} :
    Step free s (s.modifySource id ({ · with busy }))
  /-- A source goes on to what its generator has become. -/
  | advance {s : Store} {id : SourceId} {generator : Generator} (count : Nat → Nat) :
    generator.Fits s → Step free s
      (s.modifySource id fun source => { source with generator, advanced := count source.advanced })
  | addSequence {s : Store} {q : Sequence} : q.Fits s → Step free s (s.addSequence q).2
  | setPending {s : Store} {id : SequenceId} {pending : Option (Nat × Value)} :
    (∀ found ∈ pending, found.2.Fits s) → Step free s (s.setPending id pending)
  /-- A function has been created. -/
  | countFunction {s : Store} : Step free s { s with closures := s.closures + 1 }
  | printLine {s : Store} {line : String} : Step free s (s.printLine line)

/-- Steps one after the other. -/
abbrev Path (free : ScopeId → Prop) : Store → Store → Prop := Relation.ReflTransGen (Step free)

/-! ## What steps keep -/

variable {free : ScopeId → Prop} {s s' : Store}

/-- A step only adds parts, or changes what is in them. -/
theorem Step.grown (h : Step free s s') : s.Grown s' := by
  have hrefl := Grown.refl s
  cases h with
  | enclose => exact { hrefl with scopes := by simp [Store.enclose, addScope] }
  | bind => exact { hrefl with scopes := by simp [bindName, modifyScope] }
  | addVector => exact { hrefl with vectors := by simp [Store.addVector] }
  | setElement => exact { hrefl with vectors := by simp [Store.setElement] }
  | addSource => exact { hrefl with sources := by simp [Store.addSource] }
  | hold => exact { hrefl with sources := by simp }
  | advance => exact { hrefl with sources := by simp }
  | addSequence => exact { hrefl with sequences := by simp [Store.addSequence] }
  | setPending => exact { hrefl with sequences := by simp }
  | countFunction => exact { hrefl with }
  | printLine => exact { hrefl with }

/-- So do several steps. -/
theorem Path.grown (h : Path free s s') : s.Grown s' := by
  induction h with
  | refl => exact .refl s
  | tail _ hstep ih => exact ih.trans hstep.grown

/-- An element of an array in which one has been changed is one of the old ones or a changed one. -/
theorem of_mem_modify {α : Type} {xs : Array α} {i : Nat} {f : α → α} {y : α}
    (h : y ∈ xs.modify i f) : y ∈ xs ∨ ∃ x ∈ xs, f x = y := by
  obtain ⟨j, hj, rfl⟩ := Array.mem_iff_getElem.mp h
  rw [Array.getElem_modify]
  rw [Array.size_modify] at hj
  split
  · exact .inr ⟨xs[j], Array.getElem_mem hj, rfl⟩
  · exact .inl (Array.getElem_mem hj)

/-- A store is sound after a change if each of its parts was there before or refers to parts that are
there now. -/
theorem Sound.of_grown (sound : s.Sound) (grown : s.Grown s')
    (scopes : ∀ scope ∈ s'.scopes, scope ∈ s.scopes ∨ scope.Fits s')
    (vectors : ∀ items ∈ s'.vectors, items ∈ s.vectors ∨ ∀ v ∈ items, v.Fits s')
    (sources : ∀ source ∈ s'.sources, source ∈ s.sources ∨ source.generator.Fits s')
    (sequences : ∀ q ∈ s'.sequences, q ∈ s.sequences ∨ q.Fits s') : s'.Sound where
  scopes scope h := (scopes scope h).elim (fun h => (sound.scopes scope h).grown grown) id
  vectors items h :=
    (vectors items h).elim (fun h v hv => (sound.vectors items h v hv).grown grown) id
  sources source h := (sources source h).elim (fun h => (sound.sources source h).grown grown) id
  sequences q h := (sequences q h).elim (fun h => (sound.sequences q h).grown grown) id

/-- A step puts only what the store has into the store. -/
theorem Step.sound (h : Step free s s') (sound : s.Sound) : s'.Sound := by
  have hgrown := h.grown
  have hsame : ∀ {α : Type} {xs : Array α} {P : α → Prop}, ∀ x ∈ xs, x ∈ xs ∨ P x :=
    fun _ hx => .inl hx
  cases h with
  | enclose =>
    refine sound.of_grown hgrown (fun scope hscope => ?_) hsame hsame hsame
    rcases Array.mem_push.mp hscope with hold | rfl
    · exact .inl hold
    · exact .inr fun _ hbinding => nomatch hbinding
  | bind _ _ hvalue =>
    refine sound.of_grown hgrown (fun scope hscope => ?_) hsame hsame hsame
    simp only [bindName, modifyScope] at hscope
    rcases of_mem_modify hscope with hold | ⟨old, hold, rfl⟩
    · exact .inl hold
    · refine .inr fun binding hbinding => ?_
      rcases Scope.of_mem_put hbinding with hb | hb
      · exact (sound.scopes old hold binding hb).grown hgrown
      · exact hb ▸ hvalue.grown hgrown
  | addVector hitems =>
    refine sound.of_grown hgrown hsame (fun items h => ?_) hsame hsame
    rcases Array.mem_push.mp h with hold | rfl
    · exact .inl hold
    · exact .inr fun v hv => (hitems v hv).grown hgrown
  | setElement hvalue =>
    refine sound.of_grown hgrown hsame (fun items h => ?_) hsame hsame
    simp only [Store.setElement] at h
    rcases of_mem_modify h with hold | ⟨old, hold, rfl⟩
    · exact .inl hold
    · refine .inr fun v hv => ?_
      rcases Array.mem_or_eq_of_mem_setIfInBounds hv with hv | rfl
      · exact (sound.vectors old hold v hv).grown hgrown
      · exact hvalue.grown hgrown
  | addSource hgenerator =>
    refine sound.of_grown hgrown hsame hsame (fun source h => ?_) hsame
    rcases Array.mem_push.mp h with hold | rfl
    · exact .inl hold
    · exact .inr (hgenerator.grown hgrown)
  | hold =>
    refine sound.of_grown hgrown hsame hsame (fun source h => ?_) hsame
    simp only [modifySource] at h
    rcases of_mem_modify h with hold | ⟨old, hold, rfl⟩
    · exact .inl hold
    · exact .inr ((sound.sources old hold).grown hgrown)
  | advance _ hgenerator =>
    refine sound.of_grown hgrown hsame hsame (fun source h => ?_) hsame
    simp only [modifySource] at h
    rcases of_mem_modify h with hold | ⟨old, -, rfl⟩
    · exact .inl hold
    · exact .inr (hgenerator.grown hgrown)
  | addSequence hq =>
    refine sound.of_grown hgrown hsame hsame hsame fun q h => ?_
    rcases Array.mem_push.mp h with hold | rfl
    · exact .inl hold
    · exact .inr (hq.grown hgrown)
  | setPending hpending =>
    refine sound.of_grown hgrown hsame hsame hsame fun q h => ?_
    simp only [Store.setPending] at h
    rcases of_mem_modify h with hold | ⟨old, hold, rfl⟩
    · exact .inl hold
    · have hfits := (sound.sequences old hold).grown hgrown
      exact .inr { hfits with pending := fun found hf => (hpending found hf).grown hgrown }
  | countFunction => exact sound.of_grown hgrown hsame hsame hsame hsame
  | printLine => exact sound.of_grown hgrown hsame hsame hsame hsame

/-- **No step leaves a reference to a part that the store does not have.** -/
theorem Path.sound (h : Path free s s') (sound : s.Sound) : s'.Sound := by
  induction h with
  | refl => exact sound
  | tail _ hstep ih => exact hstep.sound ih

/-! ## Steps and scopes -/

/-- Scopes are told apart by their numbers. -/
theorem eq_of_index_eq {id other : ScopeId} (h : id.index = other.index) : id = other := by
  cases id
  cases other
  exact congrArg ScopeId.mk h

/-- Opening a scope changes none of the others. -/
theorem scope_enclose_of_ne {id outer : ScopeId} (h : id ≠ ⟨s.scopes.size⟩) :
    (s.enclose outer).2.scope id = s.scope id := by
  have hindex : id.index ≠ s.scopes.size := fun heq => h (eq_of_index_eq heq)
  simp only [Store.enclose, addScope, scope, Array.getD_eq_getD_getElem?, Array.getElem?_push,
    if_neg hindex]

/-- The scope in which a name is bound has the binding. -/
theorem scope_bindName_self {id : ScopeId} {name : String} {value : Value}
    (h : id.index < s.scopes.size) :
    (s.bindName id name value).scope id = (s.scope id).put name value := by
  simp only [bindName, modifyScope, scope, Array.getD_eq_getD_getElem?, Array.getElem?_modify]
  simp [h]

/-- The other scopes stay as they are. -/
theorem scope_bindName_of_ne {id place : ScopeId} {name : String} {value : Value} (h : id ≠ place) :
    (s.bindName place name value).scope id = s.scope id := by
  have hindex : place.index ≠ id.index := fun heq => h (eq_of_index_eq heq.symm)
  simp only [bindName, modifyScope, scope, Array.getD_eq_getD_getElem?, Array.getElem?_modify,
    if_neg hindex]

/-- A search for a name ends in a scope that binds it. -/
theorem binds_of_binder {id place : ScopeId} {name : String} (h : s.binder? id name = some place) :
    (s.scope place).binds name = true :=
  List.find?_some (p := fun id => (s.scope id).binds name) h

/-- An assignment binds a name that is not reserved, in its own scope or where it is bound. -/
theorem of_assignPlace {here place : ScopeId} {name : String} {isLocal : Bool}
    (h : s.assignPlace here name isLocal = .ok place) :
    s.isReserved here name = false ∧
      (place = here ∨ place ∈ s.chain here ∧ (s.scope place).binds name) := by
  unfold assignPlace checkAssignable at h
  by_cases hreserved : s.isReserved here name
  · simp [hreserved, bind, Except.bind] at h
  · refine ⟨Bool.eq_false_iff.mpr hreserved, ?_⟩
    simp only [hreserved, bind, Except.bind, pure, Except.pure, Bool.false_eq_true, if_false] at h
    by_cases hset : (!isLocal && s.contains here name) = true
    · rw [if_pos hset, setPlace] at h
      split at h
      · next found hbinder =>
        cases h
        exact .inr ⟨List.mem_of_find?_eq_some hbinder, binds_of_binder hbinder⟩
      · cases h
    · rw [if_neg hset] at h
      cases h
      exact .inl rfl

/-- What a step does to a scope that is there: nothing, or it binds a name that is not reserved, and
a new one only if the scope is free. -/
theorem Step.scope_cases (h : Step free s s') {id : ScopeId} (hid : id.index < s.scopes.size) :
    s'.scope id = s.scope id ∨
      ∃ here name value, here.index < s.scopes.size ∧ s.isReserved here name = false ∧
        (id = here ∧ free here ∨ id ∈ s.chain here ∧ (s.scope id).binds name) ∧
        s'.scope id = (s.scope id).put name value := by
  cases h with
  | enclose =>
    have hne : id ≠ ⟨s.scopes.size⟩ := by
      rintro rfl
      exact Nat.lt_irrefl _ hid
    exact .inl (scope_enclose_of_ne hne)
  | @bind here place name value isLocal hfree hhere _ hplace =>
    obtain ⟨hreserved, hwhere⟩ := of_assignPlace hplace
    by_cases hplaced : id = place
    · subst hplaced
      refine .inr ⟨here, name, value, hhere, hreserved, ?_, scope_bindName_self hid⟩
      exact hwhere.imp_left fun h => ⟨h, hfree⟩
    · exact .inl (scope_bindName_of_ne hplaced)
  | _ => exact .inl rfl

/-- A scope that a step opens is one inside a scope that was there. -/
theorem Step.of_new_scope (h : Step free s s') {id : ScopeId} (hold : s.scopes.size ≤ id.index)
    (hid : id.index < s'.scopes.size) :
    ∃ outer, outer.index < s.scopes.size ∧ s'.scope id = (s.scope outer).inside outer := by
  cases h with
  | @enclose outer houter =>
    simp only [Store.enclose, addScope, Array.size_push] at hid
    obtain rfl : id = ⟨s.scopes.size⟩ :=
      eq_of_index_eq (Nat.le_antisymm (Nat.le_of_lt_succ hid) hold)
    exact ⟨outer, houter, scope_enclose s outer⟩
  | bind =>
    simp only [bindName, modifyScope, Array.size_modify] at hid
    omega
  | _ => exact absurd hid (Nat.not_lt.mpr hold)

end Store

end Abacus
