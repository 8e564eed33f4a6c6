import Abacus.Proofs.Run.Action
import Abacus.Proofs.Store.Keeping
import Abacus.Sequence.Cursor

/-!
# Effect-free functions

A function is effect-free if what a call of it ends in depends on its argument alone and nothing
that was there before is changed by it. It may fail, and it may make new vectors, scopes and
sequences on its way; so its result is a new object each time, and only what the object stands for
is the same. A `Reading` says what values stand for: it ties them to a type of data on which
functions are functions.

**The law** (`Reading.transform_ends`): transformers made of effect-free functions do to a value what
they do to the datum that it stands for.
-/

namespace Abacus

/-- The truth value that a filter asks for, or the type of what is no truth value. -/
def Value.verdict : Value → Except TypeTag Bool
  | .boolean b => .ok b
  | other => .error other.typeTag

/-- The function that a transformer calls. -/
def Transformer.function : Transformer → Value
  | .map f | .filter f => f

/-- What values stand for, as long as everything but the sources in `own` stays as it is. -/
structure Reading (own : SourceId → Prop) (D : Type) where
  /-- In a store, a value stands for a datum. -/
  means : Store → Value → D → Prop
  number : Number → D
  /-- The datum of a vector of two elements. -/
  pair : D → D → D
  verdict : D → Except TypeTag Bool
  /-- What a call of a function with one argument at a position ends in. -/
  apply : Value → D → Position → Except Interruption D
  means_keeps : ∀ {s s' : Store} {v : Value} {d : D}, s.Keeps own s' → means s v d → means s' v d
  means_number : ∀ (s : Store) (n : Number), means s (.number n) (number n)
  means_pair : ∀ {s : Store} {a b : Value} {x y : D} {id : VectorId}, id.index < s.vectors.size →
    s.vector id = #[a, b] → means s a x → means s b y → means s (.vector id) (pair x y)
  verdict_eq : ∀ {s : Store} {v : Value} {d : D}, means s v d → verdict d = v.verdict

/-- An action ends as it is told to, and changes nothing that was there. -/
inductive Ended {α β : Type} (rel : Store → α → β → Prop) (s : Store) :
    Except Interruption β → EStateM.Result Interruption Store α → Prop
  | value {a : α} {b : β} {s' : Store} : rel s' a b → s.Grows s' → Ended rel s (.ok b) (.ok a s')
  | interruption {e : Interruption} {s' : Store} : s.Grows s' → Ended rel s (.error e) (.error e s')

namespace Ended

variable {α β α' β' : Type} {rel : Store → α → β → Prop} {rel' : Store → α' → β' → Prop}
  {s s' : Store}

/-- What ends as told after a start that changed nothing ends as told from there on. -/
theorem after {told : Except Interruption β} {result : EStateM.Result Interruption Store α}
    (h : Ended rel s' told result) (grown : s.Grows s') : Ended rel s told result := by
  cases h with
  | value hrel h => exact .value hrel (grown.trans h)
  | interruption h => exact .interruption (grown.trans h)

/-- Two steps that end as told end as their tellings do one after the other. -/
theorem bind {x : Action α} {f : α → Action α'} {told : Except Interruption β}
    {next : β → Except Interruption β'} (h : Ended rel s told (x s))
    (hnext : ∀ {a b s'}, rel s' a b → s.Grows s' → Ended rel' s' (next b) (f a s')) :
    Ended rel' s (told >>= next) ((x >>= f) s) := by
  cases hx : x s with
  | ok a s' =>
    rw [hx] at h
    rw [Action.bind_ok hx]
    cases h with
    | value hrel grown => exact (hnext hrel grown).after grown
  | error e s' =>
    rw [hx] at h
    rw [Action.bind_error hx]
    cases h with
    | interruption grown => exact .interruption grown

end Ended

/-- An action ends as it is told to, whatever it changes on its way. -/
inductive Told {α β : Type} (rel : Store → α → β → Prop) :
    Except Interruption β → EStateM.Result Interruption Store α → Prop
  | value {a : α} {b : β} {s' : Store} : rel s' a b → Told rel (.ok b) (.ok a s')
  | interruption {e : Interruption} {s' : Store} : Told rel (.error e) (.error e s')

namespace Told

variable {α β α' β' : Type} {rel : Store → α → β → Prop} {rel' : Store → α' → β' → Prop} {s : Store}

/-- Two steps end as told if the second one does after whatever the first one leaves. -/
theorem bind {x : Action α} {f : α → Action α'} {told : Except Interruption β}
    {next : β → Except Interruption β'} (h : Told rel told (x s))
    (hnext : ∀ {a b s'}, rel s' a b → Told rel' (next b) (f a s')) :
    Told rel' (told >>= next) ((x >>= f) s) := by
  cases hx : x s with
  | ok a s' =>
    rw [hx] at h
    rw [Action.bind_ok hx]
    cases h with
    | value hrel => exact hnext hrel
  | error e s' =>
    rw [hx] at h
    rw [Action.bind_error hx]
    cases h with
    | interruption => exact .interruption

end Told

/-- What ends as told and changes nothing that was there ends as told. -/
theorem Ended.told {α β : Type} {rel rel' : Store → α → β → Prop} {s : Store}
    {told : Except Interruption β} {result : EStateM.Result Interruption Store α}
    (h : Ended rel s told result) (hrel : ∀ {a b s'}, rel s' a b → s.Grows s' → rel' s' a b) :
    Told rel' told result := by
  cases h with
  | value h grown => exact .value (hrel h grown)
  | interruption => exact .interruption

namespace Reading

variable {own : SourceId → Prop} {D : Type} (R : Reading own D)

/-- In every store that keeps what was there at the start, outside the sources in `own`, a call of
the function ends as the reading tells and leaves everything as it was. -/
def EffectFree (call : Call) (start : Store) (f : Value) : Prop :=
  ∀ ⦃s : Store⦄ ⦃v : Value⦄ ⦃d : D⦄ (p : Position), start.Keeps own s → R.means s v d →
    Ended R.means s (R.apply f d p) (call f [v] p s)

/-- What transformers make of a datum; none if a filter rejects it. -/
def transform (p : Position) : List Transformer → D → Except Interruption (Option D)
  | [], d => .ok (some d)
  | .map f :: rest, d => R.apply f d p >>= transform p rest
  | .filter f :: rest, d => R.apply f d p >>= fun x =>
    match R.verdict x with
    | .ok true => transform p rest d
    | .ok false => .ok none
    | .error tag => .error (.fault ⟨.predicate tag, p⟩)

variable {R} {call : Call} {start : Store}

/-- **Transformers made of effect-free functions do to a value what they do to its datum.** -/
theorem transform_ends (p : Position) {transformers : List Transformer}
    (free : ∀ t ∈ transformers, R.EffectFree call start t.function) {s : Store} {v : Value} {d : D}
    (kept : start.Keeps own s) (hv : R.means s v d) :
    Ended (fun s' => Option.Rel (R.means s')) s (R.transform p transformers d)
      (Sequence.transform call p transformers v s) := by
  induction transformers generalizing s v d with
  | nil => exact .value (.some hv) (.refl _ _)
  | cons t rest ih =>
    have hrest := fun u hu => free u (List.mem_cons_of_mem t hu)
    have ht : Ended R.means s (R.apply t.function d p) (call t.function [v] p s) :=
      free t List.mem_cons_self p kept hv
    cases t with
    | map f =>
      refine ht.bind fun hw grown => ?_
      exact ih hrest (kept.trans (grown.keeps own)) hw
    | filter f =>
      refine ht.bind fun {w x s'} hw grown => ?_
      have hx := R.verdict_eq hw
      -- the value that the predicate gave decides, and its datum knows how
      cases w with
      | boolean b =>
        simp only [hx, Value.verdict]
        cases b with
        | true => exact ih hrest (kept.trans (grown.keeps own)) (R.means_keeps (grown.keeps own) hv)
        | false => exact .value .none (.refl _ _)
      | _ =>
        simp only [hx, Value.verdict]
        exact .interruption (.refl _ _)

end Reading

end Abacus
