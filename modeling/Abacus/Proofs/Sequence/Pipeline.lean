import Abacus.Proofs.Sequence.Collecting
import Abacus.Run.Natives

/-!
# Lazy and eager pipelines

Stages of `map` and `filter` do to a vector what they do to the sequence of its elements. On a vector
each stage goes through all elements before the next one begins, and makes a vector of what is left;
on a sequence each element goes through all stages when the sequence is collected. So the functions
are called in another order, and those of a sequence at the position where it was built; functions
without effects give the same all the same.

**The law** (`Pipeline.lazy_agrees`): of a vector, the stages one after the other make a vector of the
same data as the collected sequence, or both fail.
-/

namespace Abacus

/-- The machine on which a call runs a built-in function: its readers reach as deep as it has rounds. -/
def Machine.ofDepth (call : Call) (depth : Nat) : Machine := ⟨call, .ofDepth call depth, depth⟩

/-- A call of `map` or `filter`: what it does to each element, and where the call stands. -/
structure Stage where
  transformer : Transformer
  position : Position

namespace Stage

/-- The built-in function that is called. -/
def native (stage : Stage) : Native :=
  match stage.transformer with
  | .map _ => .map
  | .filter _ => .filter

/-- The call, on a vector or a sequence. -/
def run (machine : Machine) (stage : Stage) (x : Value) : Action Value :=
  stage.native.run machine stage.position [x, stage.transformer.function]

/-- The function of a stage must be one that can be called. -/
def check (stage : Stage) : Except Interruption Unit :=
  if stage.transformer.function.isCallable then .ok ()
  else .error (.fault ⟨.argument stage.native.name .function stage.transformer.function.typeTag,
    stage.position⟩)

end Stage

namespace Pipeline

/-- The calls one after the other, each on what the one before it has given. -/
def apply (machine : Machine) (stages : List Stage) (x : Value) : Action Value :=
  stages.foldlM (fun x stage => stage.run machine x) x

/-- The stages on a vector. -/
def eager (machine : Machine) (stages : List Stage) (v : VectorId) : Action Value :=
  apply machine stages (.vector v)

/-- The stages on the sequence of the elements of a vector, which is collected at last. -/
def lazily (machine : Machine) (first last : Position) (stages : List Stage) (v : VectorId) :
    Action Value := do
  let base ← Native.iter.run machine first [.vector v]
  let derived ← apply machine stages base
  Native.collect.run machine last [derived]

end Pipeline

namespace Reading

variable {own : SourceId → Prop} {D : Type} (R : Reading own D)

/-- A vector holds what stands for data. -/
structure Lists (s : Store) (v : VectorId) (ds : List D) : Prop where
  lt : v.index < s.vectors.size
  items : List.Forall₂ (R.means s) (s.items v) ds

/-- A value is a vector that holds what stands for data. -/
def IsVector (s : Store) (x : Value) (ds : List D) : Prop := ∃ v, x = .vector v ∧ R.Lists s v ds

/-- Two runs agree: both give vectors for the same data in the same order, or both fail. So one gives
data exactly if the other does (`Agree.gives_iff`), and one fails exactly if the other does
(`Agree.fails_iff`). -/
inductive Agree : EStateM.Result Interruption Store Value →
    EStateM.Result Interruption Store Value → Prop
  | vectors {x y : Value} {s s' : Store} {ds : List D} : R.IsVector s x ds → R.IsVector s' y ds →
    Agree (.ok x s) (.ok y s')
  | failures {e e' : Interruption} {s s' : Store} : Agree (.error e s) (.error e' s')

variable {R} {s s' : Store} {v : VectorId} {ds : List D}

/-- What a vector lists it lists while the store keeps what it had. -/
theorem Lists.keeps (h : R.Lists s v ds) (kept : s.Keeps own s') : R.Lists s' v ds := by
  refine ⟨Nat.lt_of_lt_of_le h.lt kept.size_vectors, ?_⟩
  rw [Store.items, kept.vector h.lt]
  exact all_keeps h.items kept

/-- A new vector holds what it is made of. -/
theorem newVector_ends {items : List Value} (h : List.Forall₂ (R.means s) items ds) :
    Ended R.IsVector s (.ok ds) (Action.newVector items s) := by
  have grown := s.grows_addVector items.toArray
  refine .value ⟨_, rfl, ⟨?_, ?_⟩⟩ grown
  · simp [Store.addVector]
  · rw [Store.items, Store.vector_addVector_new]
    exact all_keeps h (grown.keeps own)

/-- A run gives a vector for data. -/
def Gives (R : Reading own D) (result : EStateM.Result Interruption Store Value) (ds : List D) :
    Prop :=
  ∃ x s, result = .ok x s ∧ R.IsVector s x ds

/-- What is told to give a vector gives it. -/
theorem Gives.of_told {result : EStateM.Result Interruption Store Value}
    (h : Told R.IsVector (.ok ds) result) : R.Gives result ds := by
  cases h with
  | value hx => exact ⟨_, _, rfl, hx⟩

/-- Where a value stands for one datum alone, a vector holds the data of one list. -/
theorem IsVector.unique (unique : ∀ s, Relator.RightUnique (R.means s)) {x : Value} {ds' : List D}
    (h : R.IsVector s x ds) (h' : R.IsVector s x ds') : ds = ds' := by
  obtain ⟨v, rfl, h⟩ := h
  obtain ⟨w, hw, h'⟩ := h'
  cases hw
  exact List.right_unique_forall₂' (unique s) h.items h'.items

/-- Of two runs that agree, one gives data exactly if the other does. -/
theorem Agree.gives_iff (unique : ∀ s, Relator.RightUnique (R.means s))
    {x y : EStateM.Result Interruption Store Value} (h : R.Agree x y) :
    R.Gives x ds ↔ R.Gives y ds := by
  cases h with
  | vectors hx hy =>
    constructor
    · rintro ⟨_, _, ⟨⟩, hx'⟩
      cases hx.unique unique hx'
      exact ⟨_, _, rfl, hy⟩
    · rintro ⟨_, _, ⟨⟩, hy'⟩
      cases hy.unique unique hy'
      exact ⟨_, _, rfl, hx⟩
  | failures =>
    constructor
    · rintro ⟨_, _, ⟨⟩, _⟩
    · rintro ⟨_, _, ⟨⟩, _⟩

/-- Of two runs that agree, one fails exactly if the other does. -/
theorem Agree.fails_iff {x y : EStateM.Result Interruption Store Value} (h : R.Agree x y) :
    (∃ e s, x = .error e s) ↔ ∃ e s, y = .error e s := by
  cases h with
  | vectors => simp
  | failures => simp

/-- Results that are told the same agree. -/
theorem Agree.of_told {told told' : Except Interruption (List D)}
    {x y : EStateM.Result Interruption Store Value} (hx : Told R.IsVector told x)
    (hy : Told R.IsVector told' y) (same : ∀ ws, told = .ok ws ↔ told' = .ok ws) : R.Agree x y := by
  cases hx with
  | value hx =>
    cases hy with
    | value hy =>
      cases (same _).mp rfl
      exact .vectors hx hy
    | interruption => cases (same _).mp rfl
  | interruption =>
    cases hy with
    | value => cases (same _).mpr rfl
    | interruption => exact .failures

/-! ## Functions on lists of values -/

variable {call : Call} {start : Store} {f : Value} {p : Position}

/-- To map is to call for each element and keep what comes of it. -/
theorem survivors_map (x : D) (xs : List D) : R.survivors ⟨[.map f], p⟩ (x :: xs) =
    R.apply f x p >>= fun y => (y :: ·) <$> R.survivors ⟨[.map f], p⟩ xs := by
  rw [survivors, through_single, bind_assoc]
  rfl

/-- To filter is to keep the elements that the predicate accepts. -/
theorem survivors_filter (x : D) (xs : List D) : R.survivors ⟨[.filter f], p⟩ (x :: xs) =
    R.apply f x p >>= fun y =>
      match R.verdict y with
      | .ok true => (x :: ·) <$> R.survivors ⟨[.filter f], p⟩ xs
      | .ok false => R.survivors ⟨[.filter f], p⟩ xs
      | .error tag => .error (.fault ⟨.predicate tag, p⟩) := by
  rw [survivors, through_single, bind_assoc]
  show (R.apply f x p >>= _) = (R.apply f x p >>= _)
  congr 1
  funext y
  simp only [settle]
  cases R.verdict y with
  | error tag => rfl
  | ok b =>
    cases b with
    | true => rfl
    | false =>
      show (R.survivors ⟨[.filter f], p⟩ xs >>= pure) = _
      rw [bind_pure]

/-- A function on all values of a list gives what it makes of their data. -/
theorem mapM_ends (free : R.EffectFree call start f) (kept : start.Keeps own s) {items : List Value}
    {ds : List D} (h : List.Forall₂ (R.means s) items ds) :
    Ended (fun s' => List.Forall₂ (R.means s')) s (R.survivors ⟨[.map f], p⟩ ds)
      (items.mapM (fun item => call f [item] p) s) := by
  induction items generalizing s ds with
  | nil =>
    cases h
    exact .value .nil (.refl _ _)
  | cons item items ih =>
    cases h with
    | cons hitem hitems =>
      rw [List.mapM_cons, survivors_map]
      refine (free p kept hitem).bind fun {w y s₁} hw grown => ?_
      have hitems₁ := all_keeps hitems (grown.keeps own)
      refine (ih (kept.trans (grown.keeps own)) hitems₁).bind fun hrest grown' => ?_
      exact .value (.cons (R.means_keeps (grown'.keeps own) hw) hrest) (.refl _ _)

/-- A predicate on all values of a list keeps those whose data it keeps, behind those kept already. -/
theorem filterItems_ends (free : R.EffectFree call start f) (kept : start.Keeps own s)
    {front items : List Value} {before ds : List D}
    (hfront : List.Forall₂ (R.means s) front.reverse before)
    (h : List.Forall₂ (R.means s) items ds) :
    Ended (fun s' => List.Forall₂ (R.means s')) s
      ((before ++ ·) <$> R.survivors ⟨[.filter f], p⟩ ds)
      (Native.filterItems call f p front items s) := by
  induction items generalizing s front before ds with
  | nil =>
    cases h
    rw [survivors, Native.filterItems]
    show Ended _ s (.ok (before ++ [])) _
    rw [List.append_nil]
    exact .value hfront (.refl _ _)
  | @cons item items ih =>
    cases h with
    | @cons _ d _ ds hitem hitems =>
      rw [Native.filterItems, survivors_filter, map_bind]
      refine (free p kept hitem).bind fun {w y s₁} hw grown => ?_
      have kept₁ := kept.trans (grown.keeps own)
      have hfront₁ := all_keeps hfront (grown.keeps own)
      have hitems₁ := all_keeps hitems (grown.keeps own)
      have hy := R.verdict_eq hw
      cases w with
      | boolean b =>
        simp only [hy, Value.verdict]
        cases b with
        | true =>
          have hfront₂ : List.Forall₂ (R.means s₁) (item :: front).reverse (before ++ [d]) := by
            rw [List.reverse_cons]
            exact List.rel_append hfront₁ (.cons (R.means_keeps (grown.keeps own) hitem) .nil)
          simpa [Functor.map_map] using ih kept₁ hfront₂ hitems₁
        | false => exact ih kept₁ hfront₁ hitems₁
      | _ =>
        simp only [hy, Value.verdict]
        exact .interruption (.refl _ _)

end Reading

namespace Stage

variable {own : SourceId → Prop} {D : Type} {R : Reading own D} {machine : Machine} {start s : Store}

/-- A call whose function is checked first ends in the fault of the check or as it does after it. -/
theorem check_ends (stage : Stage) {α β : Type} {rel : Store → α → β → Prop}
    {told : Unit → Except Interruption β} {f : Unit → Action α} (h : Ended rel s (told ()) (f () s)) :
    Ended rel s (stage.check >>= told)
      ((Native.expectCallable stage.native.name stage.position stage.transformer.function >>= f)
        s) := by
  rw [check, Native.expectCallable]
  split
  · exact h
  · exact .interruption (.refl _ _)

/-- What a stage makes of the data that a vector holds. -/
def survivors (R : Reading own D) (stage : Stage) (ds : List D) : Except Interruption (List D) :=
  stage.check >>= fun _ => R.survivors ⟨[stage.transformer], stage.position⟩ ds

/-- **A stage makes of a vector one of the survivors.** -/
theorem run_vector {stage : Stage}
    (free : R.EffectFree machine.call start stage.transformer.function) (kept : start.Keeps own s)
    {x : Value} {ds : List D} (h : R.IsVector s x ds) :
    Ended R.IsVector s (stage.survivors R ds) (stage.run machine x s) := by
  obtain ⟨v, rfl, h⟩ := h
  obtain ⟨t, p⟩ := stage
  cases t with
  | map f =>
    refine check_ends ⟨.map f, p⟩ ?_
    show Ended _ s _ ((Action.items v >>= fun items => _ >>= _) s)
    rw [Action.items, Action.view_bind, ← bind_pure (R.survivors _ ds)]
    exact (Reading.mapM_ends free kept h.items).bind fun hitems _ => Reading.newVector_ends hitems
  | filter f =>
    refine check_ends ⟨.filter f, p⟩ ?_
    show Ended _ s _ ((Action.items v >>= fun items => _ >>= _) s)
    rw [Action.items, Action.view_bind, ← bind_pure (R.survivors _ ds)]
    have hfront : List.Forall₂ (R.means s) [].reverse [] := .nil
    have ends := Reading.filterItems_ends (p := p) free kept hfront h.items
    simp only [List.nil_append, id_map'] at ends
    exact ends.bind fun hitems _ => Reading.newVector_ends hitems

/-- A sequence over a new source, with its transformers and the position at which they run. -/
def Begins (b : SourceId) (g : Generator) (P : Pipe) (s : Store) (x : Value) : Prop :=
  ∃ q, x = .sequence q ∧ s.Fresh b g (· = q) ∧ (s.sequence q).pipe = P

/-- **A stage makes of a sequence one with a transformer more.** -/
theorem run_sequence {stage : Stage} {b : SourceId} {g : Generator} {P : Pipe} {x : Value}
    (h : Begins b g P s x) :
    Ended (fun s' x _ => Begins b g ⟨P.transformers ++ [stage.transformer], P.position⟩ s' x) s
      stage.check (stage.run machine x s) := by
  obtain ⟨q, rfl, fresh, rfl⟩ := h
  obtain ⟨t, p⟩ := stage
  have derives : Ended (fun s' x _ => Begins b g ⟨(s.sequence q).pipe.transformers ++ [t],
      (s.sequence q).pipe.position⟩ s' x) s (.ok ()) (Sequence.derive q t s) := by
    refine .value ⟨_, rfl, (fresh.of_derive rfl rfl).mono .inr, ?_⟩ (s.grows_addSequence _)
    exact congrArg Sequence.pipe (Store.sequence_addSequence_new _)
  rw [← bind_pure (Stage.check _)]
  cases t with
  | map f => exact check_ends ⟨.map f, p⟩ derives
  | filter f => exact check_ends ⟨.filter f, p⟩ derives

end Stage

/-! ## Pipelines -/

/-- One sequence that has the elements of a list to come. -/
def Setting.ofList {own : SourceId → Prop} {D : Type} (R : Reading own D) (call : Call) (xs : List D)
    (s : Store) (q : SequenceId) (exists_sequence : q.index < s.sequences.size)
    (free : ∀ t ∈ (s.sequence q).transformers, R.EffectFree call s t.function) : Setting D where
  own := own
  reading := R
  stream _ := Cursor.ofList xs
  limit _ := 0
  call := call
  start := s
  watched := (· = q)
  exists_of_watched := by
    rintro _ rfl
    exact exists_sequence
  free_of_watched := by
    rintro _ rfl
    exact free

namespace Reading

variable {own : SourceId → Prop} {D : Type} {R : Reading own D} {call : Call} {s s' : Store}

/-- A function that is effect-free is so later on. -/
theorem EffectFree.keeps {f : Value} (free : R.EffectFree call s f) (kept : s.Keeps own s') :
    R.EffectFree call s' f :=
  fun _ _ _ p kept' hv => free p (kept.trans kept') hv

/-- The elements of a vector are the elements of its data, place by place. -/
theorem Lists.at_stream {E : Setting D} {v : VectorId} {ds : List D} (h : E.reading.Lists s v ds)
    (p : Position) : E.At s (Cursor.ofList ds) 0 (.vector v 0 p) := by
  obtain ⟨hlength, hget⟩ := List.forall₂_iff_get.mp h.items
  refine .vector h.lt (fun j x hj => ?_) (fun j hj => ?_)
  · rw [← Array.getElem?_toList] at hj
    obtain ⟨hlt, rfl⟩ := List.getElem?_eq_some_iff.mp hj
    have hlt' : j < ds.length := hlength ▸ hlt
    exact ⟨ds[j], congrArg Except.ok (List.getElem?_eq_getElem hlt'), hget j hlt hlt'⟩
  · rw [← Array.getElem?_toList, List.getElem?_eq_none_iff] at hj
    exact congrArg Except.ok (List.getElem?_eq_none (hlength ▸ hj))

end Reading

namespace Pipeline

variable {own : SourceId → Prop} {D : Type} {R : Reading own D} {machine : Machine} {call : Call}
  {start s : Store} {stages : List Stage} {v : VectorId} {ds ws : List D}

/-- What the stages make of data one after the other. -/
def stagewise (R : Reading own D) (stages : List Stage) (ds : List D) :
    Except Interruption (List D) :=
  stages.foldlM (fun ds stage => stage.survivors R ds) ds

/-- What the stages make of data element by element, at one position. -/
def fused (R : Reading own D) (p : Position) (stages : List Stage) (ds : List D) :
    Except Interruption (List D) := do
  stages.forM Stage.check
  R.survivors ⟨stages.map Stage.transformer, p⟩ ds

/-- **Stage by stage and element by element the same survives**, if the functions give the same at
the position of their stage and at the one of the sequence. -/
theorem stagewise_eq_ok {p : Position}
    (same : ∀ stage ∈ stages, R.SameAt stage.transformer.function stage.position p) :
    stagewise R stages ds = .ok ws ↔ fused R p stages ds = .ok ws := by
  induction stages generalizing ds with
  | nil =>
    show Except.ok ds = .ok ws ↔ R.survivors ⟨[], p⟩ ds = .ok ws
    rw [Reading.survivors_nil]
  | cons stage rest ih =>
    have hsame := same stage List.mem_cons_self
    have hrest := fun stage h => same stage (List.mem_cons_of_mem _ h)
    rw [stagewise, List.foldlM_cons]
    constructor
    · intro h
      obtain ⟨ys, hys, h⟩ := bind_eq_ok.mp h
      obtain ⟨⟨⟩, hcheck, hys⟩ := bind_eq_ok.mp hys
      obtain ⟨⟨⟩, hchecks, h⟩ := bind_eq_ok.mp ((ih hrest).mp h)
      refine bind_eq_ok.mpr ⟨(), bind_eq_ok.mpr ⟨(), hcheck, hchecks⟩, ?_⟩
      exact Reading.survivors_cons.mpr ⟨ys, Reading.survivors_sameAt hsame hys, h⟩
    · intro h
      obtain ⟨⟨⟩, hchecks, h⟩ := bind_eq_ok.mp h
      obtain ⟨⟨⟩, hcheck, hchecks⟩ := bind_eq_ok.mp hchecks
      obtain ⟨ys, hys, h⟩ := Reading.survivors_cons.mp h
      refine bind_eq_ok.mpr ⟨ys, bind_eq_ok.mpr ⟨(), hcheck, ?_⟩, ?_⟩
      · exact Reading.survivors_sameAt hsame.symm hys
      · exact (ih hrest).mpr (bind_eq_ok.mpr ⟨(), hchecks, h⟩)

/-- Stages that are applied to a vector make one of what each stage keeps. -/
theorem apply_vector
    (free : ∀ stage ∈ stages, R.EffectFree machine.call start stage.transformer.function)
    (kept : start.Keeps own s) {x : Value} (h : R.IsVector s x ds) :
    Ended R.IsVector s (stagewise R stages ds) (apply machine stages x s) := by
  induction stages generalizing s x ds with
  | nil => exact .value h (.refl _ _)
  | cons stage rest ih =>
    rw [stagewise, apply, List.foldlM_cons, List.foldlM_cons]
    refine (Stage.run_vector (free stage List.mem_cons_self) kept h).bind fun hx grown => ?_
    exact ih (fun stage h => free stage (List.mem_cons_of_mem _ h)) (kept.trans (grown.keeps own)) hx

/-- Stages that are applied to a sequence add their functions to it and call none. -/
theorem apply_sequence {b : SourceId} {g : Generator} {P : Pipe} {x : Value}
    (h : Stage.Begins b g P s x) :
    Ended (fun s' x _ => Stage.Begins b g
        ⟨P.transformers ++ stages.map Stage.transformer, P.position⟩ s' x) s
      (stages.forM Stage.check) (apply machine stages x s) := by
  induction stages generalizing s x P with
  | nil =>
    rw [List.map_nil, List.append_nil]
    exact .value h (.refl _ _)
  | cons stage rest ih =>
    rw [apply, List.foldlM_cons]
    refine (Stage.run_sequence h).bind fun hx _ => ?_
    have hrest := ih hx
    rw [List.append_assoc] at hrest
    exact hrest

/-- A sequence that is created is over a new source. -/
theorem create_begins (g : Generator) (p : Position) (s : Store) :
    Ended (fun s' x _ => Stage.Begins ⟨s.sources.size⟩ g ⟨[], p⟩ s' x) s (.ok ())
      (Sequence.create g p s) := by
  have grown := (s.grows_addSource g).trans
    ((s.addSource g).2.grows_addSequence ⟨⟨s.sources.size⟩, [], none, p⟩)
  refine .value ⟨_, rfl, Store.fresh_of_create rfl, ?_⟩ grown
  exact congrArg Sequence.pipe (Store.sequence_addSequence_new _)

/-- The sequence of a vector, when it is made, has the elements of the vector to come. -/
theorem iter_begins (machine : Machine) (p : Position) (v : VectorId) (s : Store) :
    Ended (fun s' x _ => Stage.Begins ⟨s.sources.size⟩ (.vector v 0 p) ⟨[], p⟩ s' x) s (.ok ())
      (Native.iter.run machine p [.vector v] s) :=
  create_begins (.vector v 0 p) p s

/-- The collected sequence of a vector has what survives of it. -/
theorem collect_told {fuel : Nat} {p last : Position} {P : Pipe} {x : Value}
    {b : SourceId} (h : Stage.Begins b (.vector v 0 p) P s x) (hown : own b) (hv : R.Lists s v ds)
    (free : ∀ t ∈ P.transformers, R.EffectFree call s t.function) (hfuel : ds.length < fuel) :
    Told R.IsVector (R.survivors P ds)
      (Native.collect.run (.ofDepth call fuel) last [x] s) := by
  obtain ⟨q, rfl, fresh, rfl⟩ := h
  let E := Setting.ofList R call ds s q (fresh.exists_of_family rfl) free
  have placed : E.Placed b (Cursor.ofList ds) 0 s :=
    Setting.Placed.of_fresh (E := E) fresh hown (Reading.Lists.at_stream (E := E) hv p)
  have collected := placed.collect_told (Cursor.ofList_lists ds) rfl (fresh.source_of_family rfl)
    (Nat.zero_le _) hfuel
  show Told _ _ ((Sequence.collect _ _ _ q >>= Action.newVector) s)
  rw [← bind_pure (R.survivors _ ds)]
  exact collected.bind fun hitems => (Reading.newVector_ends hitems).told fun h _ => h

/-- **Stages on a vector make a vector of what survives them one after the other.** -/
theorem eager_ends
    (free : ∀ stage ∈ stages, R.EffectFree machine.call start stage.transformer.function)
    (hv : R.Lists start v ds) :
    Ended R.IsVector start (stagewise R stages ds) (eager machine stages v start) :=
  apply_vector free (.refl _ _) ⟨v, rfl, hv⟩

/-- **The collected sequence is a vector of what survives all stages**, at the position at which it
was built. -/
theorem lazily_told {fuel : Nat} {first last : Position}
    (free : ∀ stage ∈ stages, R.EffectFree call start stage.transformer.function)
    (hown : own ⟨start.sources.size⟩) (hv : R.Lists start v ds) (hfuel : ds.length < fuel) :
    Told R.IsVector (fused R first stages ds)
      (lazily (.ofDepth call fuel) first last stages v start) := by
  have iterated := (iter_begins (.ofDepth call fuel) first v start).told And.intro
  show Told _ ((.ok () : Except Interruption Unit) >>= fun _ => fused R first stages ds) _
  refine iterated.bind fun {x _ s₁} hx => ?_
  obtain ⟨hx, grown⟩ := hx
  refine ((apply_sequence hx).told And.intro).bind fun {y _ s₂} hy => ?_
  obtain ⟨hy, grown'⟩ := hy
  have kept := Store.Grows.keeps (grown.trans grown') own
  refine collect_told hy hown (hv.keeps kept) ?_ hfuel
  intro t ht
  obtain ⟨stage, hstage, rfl⟩ := List.mem_map.mp ht
  exact (free stage hstage).keeps kept

/-- **Lazy and eager pipelines agree**, if the functions are effect-free and give the same at the two
positions at which they are called. The stages, applied to a vector one after the other, make a vector
of the same data as the sequence of its elements does when it is collected with the same stages; or
both fail. -/
theorem lazy_agrees (R : Reading own D) {fuel : Nat} (first last : Position)
    (hv : R.Lists start v ds) (hown : own ⟨start.sources.size⟩)
    (free : ∀ stage ∈ stages, R.EffectFree call start stage.transformer.function)
    (same : ∀ stage ∈ stages, R.SameAt stage.transformer.function stage.position first)
    (hfuel : ds.length < fuel) :
    R.Agree (eager (.ofDepth call fuel) stages v start)
      (lazily (.ofDepth call fuel) first last stages v start) :=
  .of_told ((eager_ends free hv).told fun h _ => h) (lazily_told free hown hv hfuel)
    fun _ => stagewise_eq_ok same

/-- A store with the vector of 1, 5 and 0. -/
def threeNumbers : Store :=
  { Store.withSources #[] #[] with vectors := #[#[.integer 1, .integer 5, .integer 0]] }

/-- `filter(|x| x < 2)` and then `map(|x| x + 1)`. -/
def belowTwoPlusOne : List Stage :=
  [⟨.filter Cursor.belowTwo, ⟨8, 1, 9⟩⟩,
    ⟨.map (.function (.operating 1 ⟨0⟩ "x" .add (.integer 1) .start)), ⟨26, 2, 3⟩⟩]

/-- The stages make the vector of 2 and 1, and so does the collected sequence. -/
theorem lazy_agrees_belowTwoPlusOne :
    (Datum.reading (· = ⟨0⟩)).Gives
      (lazily (.ofDepth (Action.apply 1) 4) .start .start belowTwoPlusOne ⟨0⟩ threeNumbers)
      [.number (.integer 2), .number (.integer 1)] := by
  let R := Datum.reading (· = ⟨0⟩)
  have holds : R.Lists threeNumbers ⟨0⟩
      [.number (.integer 1), .number (.integer 5), .number (.integer 0)] :=
    ⟨by decide, .cons rfl (.cons rfl (.cons rfl .nil))⟩
  have free : ∀ stage ∈ belowTwoPlusOne,
      R.EffectFree (Action.apply 1) threeNumbers stage.transformer.function := by
    intro stage hstage
    obtain rfl | rfl : stage = _ ∨ stage = _ := by simpa [belowTwoPlusOne] using hstage
    · exact Datum.operating_effectFree (show Datum.IsPlain .less from trivial) (by decide) (by decide)
    · exact Datum.operating_effectFree (show Datum.IsPlain .add from trivial) (by decide) (by decide)
  have same : ∀ stage ∈ belowTwoPlusOne,
      R.SameAt stage.transformer.function stage.position .start := by
    intro stage hstage
    obtain rfl | rfl : stage = _ ∨ stage = _ := by simpa [belowTwoPlusOne] using hstage
    · exact fun _ _ => Iff.rfl
    · exact fun _ _ => Iff.rfl
  have agree := lazy_agrees R .start .start holds rfl free same (show 3 < 4 by decide)
  refine (agree.gives_iff fun _ _ _ _ => Datum.Shows.unique).mp ?_
  have told : stagewise R belowTwoPlusOne
      [.number (.integer 1), .number (.integer 5), .number (.integer 0)] =
      .ok [.number (.integer 2), .number (.integer 1)] := rfl
  have ends : Ended R.IsVector threeNumbers _
      (eager (.ofDepth (Action.apply 1) 4) belowTwoPlusOne ⟨0⟩ threeNumbers) := eager_ends free holds
  rw [told] at ends
  exact .of_told (ends.told fun h _ => h)

end Pipeline

end Abacus
