import Abacus.Proofs.Run.Action
import Abacus.Sequence.Cursor

/-!
# What is never asked does not matter

An action that reads sequences calls functions, asks a reader and goes in rounds. It may be given
more of each: a call that answers where another one does not, a reader that reaches deeper, more
rounds. `Action.Below x y` says that wherever `x` ends in a value, `y` ends in the same value and
leaves the same store. So a call that refuses to apply a function to some element, and goes
unnoticed, shows that the function is not applied to it.

**The law** (`Reader.ofDepth_below`, `Sequence.collect_below`): a read that ends in a value ends in it
with more, too.
-/

namespace Abacus

namespace Action

variable {α β : Type}

/-- Where the first action ends in a value, the second one does the same. -/
def Below (x y : Action α) : Prop :=
  ∀ ⦃s : Store⦄ ⦃a : α⦄ ⦃s' : Store⦄, x s = .ok a s' → y s = .ok a s'

namespace Below

/-- An action does what it does. -/
protected theorem refl (x : Action α) : Below x x := fun _ _ _ h => h

/-- An action that never ends in a value is below all others. -/
theorem throw (e : Interruption) (y : Action α) : Below (throw e) y := fun _ _ _ h => nomatch h

/-- One action after another. -/
theorem bind {x y : Action α} {f g : α → Action β} (h : Below x y) (hfg : ∀ a, Below (f a) (g a)) :
    Below (x >>= f) (y >>= g) := by
  intro s b s'' hxf
  obtain ⟨a, s', hx, hf⟩ := of_bind_ok hxf
  rw [bind_ok (h hx)]
  exact hfg a hf

/-- A choice of actions. -/
theorem ite {c : Prop} [Decidable c] {x y x' y' : Action α} (h : Below x y) (h' : Below x' y') :
    Below (if c then x else x') (if c then y else y') := by
  split
  · exact h
  · exact h'

end Below

end Action

open Abacus.Action (Below)

/-- A call that answers where another one does answers the same. -/
def Call.Below (call call' : Call) : Prop :=
  ∀ (f : Value) (arguments : List Value) (p : Position),
    Action.Below (call f arguments p) (call' f arguments p)

/-- Calls do what they do. -/
theorem Call.Below.refl (call : Call) : call.Below call := fun _ _ _ => .refl _

/-- A reader answers as another one wherever it does not run out of fuel. -/
structure Reader.Below (reader reader' : Reader) : Prop where
  atEnd : ∀ q : SequenceId, Action.Below (reader.atEnd q) (reader'.atEnd q)
  next : ∀ (q : SequenceId) (peek : Bool), Action.Below (reader.next q peek) (reader'.next q peek)

section Below

variable {call call' : Call} {reader reader' : Reader} (hcall : call.Below call')
  (hreader : reader.Below reader')

include hreader

/-- With more fuel a generator tells its end as before. -/
theorem Generator.atEnd_below (g : Generator) : Below (g.atEnd reader) (g.atEnd reader') := by
  cases g with
  | zip l r => exact (hreader.atEnd l).bind fun _ => .ite (.refl _) (hreader.atEnd r)
  | take q n => exact .ite (.refl _) (hreader.atEnd q)
  | _ => exact .refl _

include hcall

/-- And gives what it gave. -/
theorem Generator.next_below (peek : Bool) (g : Generator) :
    Below (g.next call reader peek) (g.next call' reader' peek) := by
  cases g with
  | index f place limit cached p =>
    refine (Generator.atEnd_below hreader _).bind fun _ => .ite (.refl _) ?_
    cases cached with
    | some v => exact .refl _
    | none => exact (hcall f [.ofNat place] p).bind fun _ => .refl _
  | iterate f upcoming previous p =>
    cases upcoming with
    | some v => exact .refl _
    | none =>
      cases previous with
      | some v => exact (hcall f [v] p).bind fun _ => .refl _
      | none => exact .refl _
  | range current stop step p => exact (Generator.atEnd_below hreader _).bind fun _ => .refl _
  | vector items place p => exact .refl _
  | zip l r =>
    exact (hreader.next l peek).bind fun _ => (hreader.next r peek).bind fun _ => .refl _
  | take q n => exact .ite (.refl _) ((hreader.next q peek).bind fun _ => .refl _)

namespace Sequence

omit hcall hreader in
/-- A source may be held meanwhile. -/
theorem holding_below {α : Type} (id : SourceId) {x y : Action α} (h : Below x y) :
    Below (holding id x) (holding id y) := by
  intro s a s' hx
  unfold holding at hx ⊢
  cases hresult : x (s.modifySource id ({ · with busy := true })) with
  | ok b s₁ =>
    rw [hresult] at hx
    rw [h hresult]
    exact hx
  | error e s₁ =>
    rw [hresult] at hx
    cases hx

/-- With more fuel a source gives what it gave. -/
theorem raw_below (peek : Bool) (id : SourceId) (p : Position) :
    Below (raw call reader peek id p) (raw call' reader' peek id p) := by
  refine (Below.refl _).bind fun source => .ite (.refl _) (holding_below id ?_)
  refine (Generator.atEnd_below hreader source.generator).bind fun _ => .ite (.refl _) ?_
  exact (Generator.next_below hcall hreader peek source.generator).bind fun _ => .refl _

omit hreader in
/-- The functions of a sequence make what they made. -/
theorem transform_below (p : Position) (ts : List Transformer) (v : Value) :
    Below (transform call p ts v) (transform call' p ts v) := by
  induction ts generalizing v with
  | nil => exact .refl _
  | cons t rest ih =>
    cases t with
    | map f => exact (hcall f [v] p).bind ih
    | filter f =>
      refine (hcall f [v] p).bind fun _ => ?_
      split
      · exact ih v
      · exact .refl _
      · exact .refl _

/-- With more fuel a search goes on at most: by induction on the smaller one. -/
theorem seek_below (q : SequenceId) (base : Sequence) {fuel fuel' : Nat} (hle : fuel ≤ fuel') :
    Below (seek call reader q base fuel) (seek call' reader' q base fuel') := by
  induction fuel generalizing fuel' with
  | zero => exact .throw _ _
  | succ fuel ih =>
    cases fuel' with
    | zero => exact absurd hle (Nat.not_succ_le_zero fuel)
    | succ fuel' =>
      refine (Below.refl _).bind fun _ => ?_
      refine (raw_below hcall hreader true base.source base.position).bind fun element => ?_
      cases element with
      | none => exact .refl _
      | some element =>
        refine (transform_below hcall base.position base.transformers element).bind fun found => ?_
        cases found with
        | some v => exact .refl _
        | none =>
          exact (raw_below hcall hreader false base.source base.position).bind fun _ =>
            ih (Nat.le_of_succ_le_succ hle)

/-- To look ahead finds what it found. -/
theorem lookahead_below (q : SequenceId) {fuel fuel' : Nat} (hle : fuel ≤ fuel') :
    Below (lookahead call reader fuel q) (lookahead call' reader' fuel' q) := by
  refine (Below.refl _).bind fun base => (Below.refl _).bind fun advanced => ?_
  cases base.pending with
  | none => exact seek_below hcall hreader q base hle
  | some found =>
    exact .ite (.refl _) ((Below.refl _).bind fun _ => seek_below hcall hreader q base hle)

/-- The end is told as before. -/
theorem atEnd_below (q : SequenceId) {fuel fuel' : Nat} (hle : fuel ≤ fuel') :
    Below (atEnd call reader fuel q) (atEnd call' reader' fuel' q) :=
  (lookahead_below hcall hreader q hle).bind fun _ => .refl _

/-- The same element is looked at. -/
theorem peek_below (q : SequenceId) (p : Position) {fuel fuel' : Nat} (hle : fuel ≤ fuel') :
    Below (peek call reader fuel q p) (peek call' reader' fuel' q p) :=
  (lookahead_below hcall hreader q hle).bind fun _ => .refl _

/-- The same element is taken. -/
theorem next_below (q : SequenceId) (p : Position) {fuel fuel' : Nat} (hle : fuel ≤ fuel') :
    Below (next call reader fuel q p) (next call' reader' fuel' q p) := by
  refine (peek_below hcall hreader q p hle).bind fun _ => (Below.refl _).bind fun base => ?_
  exact (raw_below hcall hreader false base.source base.position).bind fun _ => .refl _

/-- The same elements are folded. -/
theorem foldAll_below {σ : Type} (q : SequenceId) (p : Position) {step step' : σ → Value → Action σ}
    (hstep : ∀ a v, Below (step a v) (step' a v)) {fuel fuel' : Nat} (hle : fuel ≤ fuel') (a : σ) :
    Below (foldAll call reader q p step fuel a) (foldAll call' reader' q p step' fuel' a) := by
  induction fuel generalizing fuel' a with
  | zero => exact .throw _ _
  | succ fuel ih =>
    cases fuel' with
    | zero => exact absurd hle (Nat.not_succ_le_zero fuel)
    | succ fuel' =>
      refine (atEnd_below hcall hreader q hle).bind fun _ => .ite (.refl _) ?_
      refine (next_below hcall hreader q p hle).bind fun v => ?_
      exact (hstep a v).bind fun a' => ih (Nat.le_of_succ_le_succ hle) a'

/-- **A sequence that is collected is collected the same with more.** -/
theorem collect_below (q : SequenceId) {fuel fuel' : Nat} (hle : fuel ≤ fuel') :
    Below (collect call reader fuel q) (collect call' reader' fuel' q) := by
  refine (Below.refl _).bind fun p => ?_
  exact (foldAll_below hcall hreader q p (fun _ _ => .refl _) hle []).bind fun _ => .refl _

end Sequence

omit hreader in
/-- **A reader answers as one that reaches less deep does.** -/
theorem Reader.ofDepth_below {depth depth' : Nat} (hle : depth ≤ depth') :
    (Reader.ofDepth call depth).Below (.ofDepth call' depth') := by
  induction depth generalizing depth' with
  | zero => exact ⟨fun _ => .throw _ _, fun _ _ => .throw _ _⟩
  | succ depth ih =>
    cases depth' with
    | zero => exact absurd hle (Nat.not_succ_le_zero depth)
    | succ depth' =>
      have hless := Nat.le_of_succ_le_succ hle
      refine ⟨fun q => Sequence.atEnd_below hcall (ih hless) q hless, fun q peek s => ?_⟩
      cases peek with
      | true => exact fun _ _ h => Sequence.peek_below hcall (ih hless) q _ hless h
      | false => exact fun _ _ h => Sequence.next_below hcall (ih hless) q _ hless h

end Below

end Abacus
