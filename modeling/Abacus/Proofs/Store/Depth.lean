import Abacus.Proofs.Run.Action
import Abacus.Proofs.Store.Acyclic
import Abacus.Run.Operators

/-!
# Depth decides nothing

The functions that follow a value into its vectors look down to a depth that is more than the number
of vectors there are. Where no vector holds itself, that is deeper than any value goes. So the
functions answer as they would if they looked down without end, and the operators are never at a loss
for depth.

**The law** (`Store.vectors_never_cyclic`): at every moment of every run no vector holds itself, at
any depth; vectors keep their length; and text, equality, reachability and the operators follow every
value to its end.
-/

namespace Abacus

namespace Store

variable {s s' : Store}

/-! ## Text, equality, reachability -/

/-- A function that treats vectors by what it makes of their elements makes of a value the same at
every depth that is deep enough for it. -/
theorem NestedTo.settled {β : Type} {f : Nat → Value → β}
    (hatom : ∀ {v}, (∀ id, v ≠ .vector id) → ∀ depth depth', f depth v = f depth' v)
    (hvector : ∀ {id depth depth'}, (∀ w ∈ s.items id, f depth w = f depth' w) →
      f (depth + 1) (.vector id) = f (depth' + 1) (.vector id))
    {depth depth' : Nat} {v : Value} (h : s.NestedTo depth v) (hle : depth ≤ depth') :
    f depth v = f depth' v := by
  induction depth generalizing v depth' with
  | zero =>
    cases v with
    | vector id => exact h.elim
    | _ => exact hatom (by simp) _ _
  | succ depth ih =>
    cases depth' with
    | zero => exact absurd hle (Nat.not_succ_le_zero _)
    | succ depth' =>
      cases v with
      | vector id => exact hvector fun w hw => ih (h w hw) (Nat.le_of_succ_le_succ hle)
      | _ => exact hatom (by simp) _ _

/-- The text of a value is the same at every depth that is deep enough. -/
theorem textTo_eq {depth depth' : Nat} {v : Value} (h : s.NestedTo depth v) (hle : depth ≤ depth') :
    s.textTo depth v = s.textTo depth' v := by
  refine h.settled (fun {v} hv depth depth' => ?_) (fun {id depth depth'} hitems => ?_) hle
  · cases v with
    | vector id => exact absurd rfl (hv id)
    | _ => cases depth <;> cases depth' <;> rfl
  · rw [textTo, textTo, List.map_congr_left hitems]

/-- Two tests of pairs that are one on the left values give one answer. -/
theorem all_zip_congr {f g : Value → Value → Bool} {xs : List Value} (h : ∀ v ∈ xs, f v = g v)
    (ys : List Value) :
    ((xs.zip ys).all fun pair => f pair.1 pair.2) =
      (xs.zip ys).all fun pair => g pair.1 pair.2 := by
  rw [Bool.eq_iff_iff, List.all_eq_true, List.all_eq_true]
  exact forall₂_congr fun pair hpair => by rw [h _ (List.of_mem_zip hpair).1]

/-- So is the answer whether it is equal to another. -/
theorem equalTo_eq {numbers : Number → Number → Bool} {depth depth' : Nat} {v : Value}
    (h : s.NestedTo depth v) (hle : depth ≤ depth') :
    s.equalTo numbers depth v = s.equalTo numbers depth' v := by
  refine h.settled (fun {v} hv depth depth' => ?_) (fun {id depth depth'} hitems => ?_) hle
  · funext w
    cases v with
    | vector id => exact absurd rfl (hv id)
    | _ => cases depth <;> cases depth' <;> cases w <;> rfl
  · funext w
    cases w with
    | vector other => rw [equalTo, equalTo, all_zip_congr hitems]
    | _ => rfl

/-- Vectors are equal, however numbers are compared, if they are one or if their elements are
equal. -/
theorem AcyclicFrom.equalTo_vector {a : VectorId} (h : s.AcyclicFrom (.vector a)) (sound : s.Sound)
    (numbers : Number → Number → Bool) (b : VectorId) :
    s.equalTo numbers s.depth (.vector a) (.vector b) =
      (a == b || ((s.items a).length == (s.items b).length &&
        ((s.items a).zip (s.items b)).all fun pair =>
          s.equalTo numbers s.depth pair.1 pair.2)) := by
  -- elements are looked at with one depth less, and that is deep enough for them
  have hnested : s.NestedTo (s.vectors.size + 1) (.vector a) := h.nestedTo sound
  have hitems : ∀ v ∈ s.items a,
      s.equalTo numbers s.vectors.size v = s.equalTo numbers (s.vectors.size + 1) v :=
    fun v hv => equalTo_eq (hnested v hv) (Nat.le_succ _)
  rw [depth, equalTo, all_zip_congr hitems]

/-- And whether it leads to a vector. -/
theorem reachesTo_eq {target : VectorId} {depth depth' : Nat} {v : Value} (h : s.NestedTo depth v)
    (hle : depth ≤ depth') : s.reachesTo target depth v = s.reachesTo target depth' v := by
  refine h.settled (fun {v} hv depth depth' => ?_) (fun {id depth depth'} hitems => ?_) hle
  · cases v with
    | vector id => exact absurd rfl (hv id)
    | _ => cases depth <;> cases depth' <;> rfl
  · rw [reachesTo, reachesTo, Bool.eq_iff_iff]
    simp only [Bool.or_eq_true, List.any_eq_true]
    exact or_congr_right (exists_congr fun w => and_congr_right fun hw => by rw [hitems w hw])

section Acyclic

variable (hs : s.Acyclic) (sound : s.Sound)

include hs sound

/-- Elements are looked at with one depth less, and that is deep enough for them. -/
theorem Acyclic.nestedTo_size {id : VectorId} {v : Value} (h : v ∈ s.items id) :
    s.NestedTo s.vectors.size v :=
  hs.nestedTo sound (.vector id) v h

/-- The text of a vector is made of the texts of its elements. -/
theorem Acyclic.text_vector (id : VectorId) :
    s.text (.vector id) = "[" ++ ", ".intercalate ((s.items id).map s.text) ++ "]" := by
  have hitems : (s.items id).map (s.textTo s.vectors.size) = (s.items id).map s.text :=
    List.map_congr_left fun _ hv => textTo_eq (hs.nestedTo_size sound hv) (Nat.le_succ _)
  rw [text, depth, textTo, hitems]

/-- Vectors are equal if they are one or if their elements are equal. -/
theorem Acyclic.equal_vector (a b : VectorId) :
    s.equal (.vector a) (.vector b) = (a == b || ((s.items a).length == (s.items b).length &&
      ((s.items a).zip (s.items b)).all fun pair => s.equal pair.1 pair.2)) :=
  (hs.acyclicFrom _).equalTo_vector sound _ b

/-- A vector is reached from one that it is or from whose elements it is reached. -/
theorem Acyclic.reaches_vector (id target : VectorId) :
    s.reaches (.vector id) target = (id == target || (s.items id).any (s.reaches · target)) := by
  rw [reaches, depth, reachesTo, Bool.eq_iff_iff]
  simp only [Bool.or_eq_true, List.any_eq_true]
  refine or_congr_right (exists_congr fun v => and_congr_right fun hv => ?_)
  rw [reachesTo_eq (hs.nestedTo_size sound hv) (Nat.le_succ _), reaches, depth]

end Acyclic

end Store

/-! ## Operators -/

namespace Action

/-- The action ends in a good value or in a fault, and has changed nothing that was there. -/
def Completes {α : Type} (x : Action α) (good : α → Prop) (s : Store) : Prop :=
  ∃ s', s.Grows s' ∧ ((∃ a, x s = .ok a s' ∧ good a) ∨ ∃ error, x s = .error (.fault error) s')

namespace Completes

variable {α β : Type} {base s : Store} {P : α → Prop} {Q : β → Prop}

/-- To give a value. -/
theorem pure {a : α} (h : P a) : Completes (Pure.pure a) P s := ⟨s, .refl _ s, .inl ⟨a, rfl, h⟩⟩

/-- To end with a fault is to complete as well. -/
theorem fail {fault : Fault} {position : Position} : Completes (Action.fail fault position) P s :=
  ⟨s, .refl _ s, .inr ⟨_, rfl⟩⟩

/-- Actions that complete do so one after the other. -/
theorem bind {x : Action α} {f : α → Action β} (h : Completes x P s)
    (hf : ∀ {a s'}, s.Grows s' → P a → Completes (f a) Q s') : Completes (x >>= f) Q s := by
  obtain ⟨s', hgrows, ⟨a, hx, ha⟩ | ⟨error, hx⟩⟩ := h
  · obtain ⟨s'', hgrows', hrest⟩ := hf hgrows ha
    refine ⟨s'', hgrows.trans hgrows', ?_⟩
    rwa [bind_ok hx]
  · exact ⟨s', hgrows, .inr ⟨error, bind_error hx _⟩⟩

/-- To read the store and go on. -/
theorem view {f : Store → α} {rest : α → Action β} (h : Completes (rest (f s)) Q s) :
    Completes (Action.view f >>= rest) Q s :=
  h

/-- To make a vector. -/
theorem newVector {items : List Value} : Completes (Action.newVector items) (fun _ => True) s :=
  ⟨_, s.grows_addVector _, .inl ⟨_, rfl, trivial⟩⟩

/-- A vector that was there still has the elements that it had. -/
theorem items {id : VectorId} (grown : base.Grows s) (hid : id.index < base.vectors.size) :
    Completes (Action.items id) (· = base.items id) s :=
  view (pure (Store.items_grows grown hid))

/-- What is said of the value may be said more weakly. -/
theorem imp {P' : α → Prop} {x : Action α} (h : Completes x P s) (himp : ∀ {a}, P a → P' a) :
    Completes x P' s := by
  obtain ⟨s', hgrows, ⟨a, hx, ha⟩ | hfault⟩ := h
  · exact ⟨s', hgrows, .inl ⟨a, hx, himp ha⟩⟩
  · exact ⟨s', hgrows, .inr hfault⟩

/-- To go on only if a condition is false. -/
theorem guarded {c : Prop} [Decidable c] {fault : Fault} {position : Position}
    {rest : PUnit → Action α} (h : Completes (rest ⟨⟩) P s) :
    Completes (if c then (do let r ← Action.fail fault position; rest r) else rest ⟨⟩) P s := by
  split
  · exact ⟨s, .refl _ s, .inr ⟨_, rfl⟩⟩
  · exact h

/-- To work on elements from left to right. -/
theorem mapM {f : β → Action Value} {xs : List β}
    (h : ∀ x ∈ xs, ∀ {s'}, s.Grows s' → Completes (f x) (fun _ => True) s') :
    Completes (xs.mapM f) (fun _ => True) s := by
  induction xs generalizing s with
  | nil => exact pure trivial
  | cons x rest ih =>
    rw [List.mapM_cons]
    refine (h x List.mem_cons_self (.refl _ s)).bind fun hgrows _ => ?_
    refine (ih fun y hy _ hgrows' => h y (List.mem_cons_of_mem x hy) (hgrows.trans hgrows')).bind
      fun _ _ => pure trivial

/-- To fold them. -/
theorem foldlM {f : α → β → Action α} {xs : List β} {a : α} (init : P a)
    (h : ∀ x ∈ xs, ∀ {a s'}, s.Grows s' → P a → Completes (f a x) P s') :
    Completes (xs.foldlM f a) P s := by
  induction xs generalizing s a with
  | nil => exact pure init
  | cons x rest ih =>
    rw [List.foldlM_cons]
    refine (h x List.mem_cons_self (.refl _ s) init).bind fun hgrows ha => ?_
    exact ih ha fun y hy _ _ hgrows' => h y (List.mem_cons_of_mem x hy) (hgrows.trans hgrows')

end Completes

section Operators

variable {base s : Store} (sound : base.Sound)

/-- What an operator goes down into: a value that the store had at the start, and not below the
depth. -/
def Within (base : Store) (depth : Nat) (v : Value) : Prop := v.Fits base ∧ base.NestedTo depth v

include sound in
/-- An element is nested less deeply than its vector. -/
theorem Within.of_mem {depth : Nat} {id : VectorId} {v : Value}
    (h : Within base (depth + 1) (.vector id)) (hv : v ∈ base.items id) : Within base depth v :=
  ⟨sound.fits_of_mem_items hv, h.2 v hv⟩

/-- A number is nested in nothing. -/
theorem Within.number {depth : Nat} (n : Number) : Within base depth (.number n) :=
  ⟨trivial, by cases depth <;> trivial⟩

/-- A sum that begins with a number is a number or a fault, whatever is added. -/
theorem add_completes (position : Position) (depth : Nat) (n : Number) (v : Value) :
    Completes (binaryTo position depth .add (.number n) v) (fun sum => ∃ m, sum = .number m) s := by
  cases v with
  | number m =>
    rw [binaryTo.eq_def]
    exact Completes.pure ⟨_, rfl⟩
  | _ =>
    rw [binaryTo.eq_def]
    exact Completes.fail

include sound in
/-- Each operand is followed no deeper than it goes, so there is always depth left. -/
theorem binaryTo_completes (position : Position) {depth : Nat} {op : BinaryOp} {left right : Value}
    (grown : base.Grows s) (hleft : Within base depth left) (hright : Within base depth right) :
    Completes (binaryTo position depth op left right) (fun _ => True) s := by
  induction depth using Nat.strongRecOn generalizing op left right s with
  | ind depth ih =>
    unfold binaryTo
    split
    case h_1 | h_2 => exact Completes.view (.pure trivial)
    case h_3 =>
      split
      · exact .pure trivial
      · exact .fail
    case h_4 =>
      split
      · exact hleft.2.elim
      · next depth =>
        have hpairs : ∀ {a b : VectorId}, Within base (depth + 1) (.vector a) →
            Within base (depth + 1) (.vector b) → ∀ pair ∈ (base.items a).zip (base.items b),
            Within base depth pair.1 ∧ Within base depth pair.2 := fun ha hb pair hpair =>
          ⟨ha.of_mem sound (List.of_mem_zip hpair).1, hb.of_mem sound (List.of_mem_zip hpair).2⟩
        split
        case h_1 | h_2 =>
          refine (Completes.items grown hleft.1).bind fun hgrows hxs => ?_
          refine (Completes.items (grown.trans hgrows) hright.1).bind fun hgrows' hys => ?_
          subst hxs hys
          refine .guarded (.bind (.mapM fun pair hpair _ hgrows'' => ?_) fun _ _ => .newVector)
          obtain ⟨ha, hb⟩ := hpairs hleft hright pair hpair
          exact ih _ (Nat.lt_succ_self _) (((grown.trans hgrows).trans hgrows').trans hgrows'') ha hb
        case h_3 =>
          refine (Completes.items grown hleft.1).bind fun hgrows hxs => ?_
          refine (Completes.items (grown.trans hgrows) hright.1).bind fun hgrows' hys => ?_
          subst hxs hys
          refine .guarded (.imp (P := fun sum => ∃ m, sum = .number m)
            (.foldlM ⟨_, rfl⟩ fun pair hpair sum _ hgrows'' hsum => ?_) fun _ => trivial)
          obtain ⟨ha, hb⟩ := hpairs hleft hright pair hpair
          obtain ⟨n, rfl⟩ := hsum
          refine (ih _ (Nat.lt_succ_self _) (((grown.trans hgrows).trans hgrows').trans hgrows'')
            ha hb).bind fun _ _ => add_completes position depth n _
        case h_4 => exact .fail
    case h_5 =>
      split
      · exact hright.2.elim
      · refine (Completes.items grown hright.1).bind fun hgrows hxs => ?_
        subst hxs
        refine .bind (.mapM fun item hitem _ hgrows' => ?_) fun _ _ => .newVector
        exact ih _ (Nat.lt_succ_self _) ((grown.trans hgrows).trans hgrows') (.number _)
          (hright.of_mem sound hitem)
    case h_6 | h_7 =>
      split
      · exact hleft.2.elim
      · refine (Completes.items grown hleft.1).bind fun hgrows hxs => ?_
        subst hxs
        refine .bind (.mapM fun item hitem _ hgrows' => ?_) fun _ _ => .newVector
        exact ih _ (Nat.lt_succ_self _) ((grown.trans hgrows).trans hgrows')
          (hleft.of_mem sound hitem) (.number _)
    case h_8 => exact .fail

include sound in
/-- A negation comes to the end of every element. -/
theorem negateTo_completes (position : Position) {depth : Nat} {v : Value} (grown : base.Grows s)
    (h : Within base depth v) : Completes (negateTo position depth v) (fun _ => True) s := by
  induction depth generalizing v s with
  | zero =>
    cases v with
    | number n => exact .pure trivial
    | vector id => exact h.2.elim
    | _ => exact .fail
  | succ depth ih =>
    cases v with
    | number n => exact .pure trivial
    | vector id =>
      refine (Completes.items grown h.1).bind fun hgrows hxs => ?_
      subst hxs
      refine .bind (.mapM fun item hitem _ hgrows' => ?_) fun _ _ => .newVector
      exact ih ((grown.trans hgrows).trans hgrows') (h.of_mem sound hitem)
    | _ => exact .fail

end Operators

variable {s : Store} (hs : s.Acyclic) (sound : s.Sound)

include hs sound

/-- So does an operator of two values. -/
theorem binary_completes (op : BinaryOp) {left right : Value} (position : Position)
    (hleft : left.Fits s) (hright : right.Fits s) :
    Completes (binary op left right position) (fun _ => True) s :=
  .view (binaryTo_completes sound position (.refl _ s) ⟨hleft, hs.nestedTo sound left⟩
    ⟨hright, hs.nestedTo sound right⟩)

/-- And an operator of one value. -/
theorem unary_completes (op : UnaryOp) {operand : Value} (position : Position)
    (h : operand.Fits s) : Completes (unary op operand position) (fun _ => True) s := by
  unfold unary
  split
  · exact .view (negateTo_completes sound position (.refl _ s) ⟨h, hs.nestedTo sound _⟩)
  · exact .pure trivial
  · exact .fail

end Action

namespace Store

/-- **No vector holds itself, at any moment of any run, and each keeps its length.** Sources leave
reached stores, and from a reached store every evaluation goes on in steps. In each of them nothing
is an element of itself, at any depth; a value's text, equality and reachability are those of its
elements, all the way down; and the operators end in a value or in a fault on all values that there
are. -/
theorem vectors_never_cyclic :
    (∀ sources : List String, (initial.2.afterSources outermost sources).Reached) ∧
    ∀ {s : Store}, s.Reached →
      (∀ (here : ScopeId) (fuel : Nat) (e : Expr), here.index < s.scopes.size →
        s.Path (fun _ => True) (storeAfter (Action.evaluate (Action.apply fuel) e here s))) ∧
      (∀ id : VectorId, ¬ Relation.TransGen s.Carries id id) ∧
      (∀ {s' : Store} {id : VectorId}, s.Path (fun _ => True) s' → id.index < s.vectors.size →
        (s'.vector id).size = (s.vector id).size) ∧
      WellFounded s.Element ∧
      (∀ id : VectorId,
        s.text (.vector id) = "[" ++ ", ".intercalate ((s.items id).map s.text) ++ "]") ∧
      (∀ a b : VectorId, s.equal (.vector a) (.vector b) =
        (a == b || ((s.items a).length == (s.items b).length &&
          ((s.items a).zip (s.items b)).all fun pair => s.equal pair.1 pair.2))) ∧
      (∀ id target : VectorId,
        s.reaches (.vector id) target = (id == target || (s.items id).any (s.reaches · target))) ∧
      (∀ (op : BinaryOp) (left right : Value) (position : Position), left.Fits s → right.Fits s →
        Action.Completes (Action.binary op left right position) (fun _ => True) s) ∧
      ∀ (op : UnaryOp) (operand : Value) (position : Position), operand.Fits s →
        Action.Completes (Action.unary op operand position) (fun _ => True) s := by
  refine ⟨reached_afterSources, fun {s} hs => ?_⟩
  have hacyclic := hs.acyclic
  have hsound := hs.sound
  refine ⟨fun here fuel e hhere => hs.ready.path_evaluate ⟨trivial, hhere⟩ fuel e, hacyclic,
    fun hpath hid => hpath.size_vector hid, hacyclic.wellFounded_element hsound,
    hacyclic.text_vector hsound, hacyclic.equal_vector hsound, hacyclic.reaches_vector hsound,
    fun op left right position => Action.binary_completes hacyclic hsound op position,
    fun op operand position => Action.unary_completes hacyclic hsound op position⟩

/-- A vector comes to hold another one twice, and the write that would close the circle changes
nothing; the sum of the vector with itself is taken all the way down. -/
theorem vectors_never_cyclic_shared :
    let s := initial.2.afterSources outermost
      ["a = [1, [2]]", "b = [a, 3]", "set(b, 1, a)", "try_or(|| set(a, 0, b), a)"]
    let b : VectorId := ⟨2⟩
    s.Reached ∧ s.reaches (.vector b) ⟨0⟩ ∧ s.text (.vector b) = "[[1, [2]], [1, [2]]]" ∧
      ¬ Relation.TransGen s.Carries b b ∧ (Value.vector b).Fits s ∧
      Action.Completes (Action.binary .add (.vector b) (.vector b) .start) (fun _ => True) s := by
  intro s b
  have hreached : s.Reached := vectors_never_cyclic.1 _
  obtain ⟨hsize, hreaches, htext⟩ : b.index < s.vectors.size ∧ s.reaches (.vector b) ⟨0⟩ ∧
      s.text (.vector b) = "[[1, [2]], [1, [2]]]" := by decide +kernel
  obtain ⟨-, hacyclic, -, -, -, -, -, hbinary, -⟩ := vectors_never_cyclic.2 hreached
  exact ⟨hreached, hreaches, htext, hacyclic b, hsize, hbinary .add _ _ .start hsize hsize⟩

end Store

end Abacus
