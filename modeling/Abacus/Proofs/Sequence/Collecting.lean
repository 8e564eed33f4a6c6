import Abacus.Proofs.Sequence.Cursor

/-!
# What a sequence has left

A sequence over a stream of finitely many elements gives those that its transformers let through, in
their order. `Reading.survivors` says which those are, without the sequence: each element goes through
all transformers before the next one does.

**The laws.** What survives several transformers is what survives the others of what survives the
first (`Reading.survivors_cons`), if none of them fails. A member of a family that is collected gives
the survivors of what the stream has left (`Setting.Placed.collect_told`).
-/

namespace Abacus

/-- What is done one after the other succeeds if each of it does. -/
theorem bind_eq_ok {ε α β : Type} {x : Except ε α} {f : α → Except ε β} {b : β} :
    x >>= f = .ok b ↔ ∃ a, x = .ok a ∧ f a = .ok b := by
  cases x with
  | error e => simp [bind, Except.bind]
  | ok a => simp [bind, Except.bind]

/-! ## Survivors -/

namespace Reading

variable {own : SourceId → Prop} {D : Type} (R : Reading own D)

/-- What a pipe lets through of a list, unless it fails on an element. -/
def survivors (P : Pipe) : List D → Except Interruption (List D)
  | [] => .ok []
  | x :: xs => do
    let survivor ← R.through P x
    let rest ← survivors P xs
    return survivor.toList ++ rest

/-- A function gives the same at two positions, though it may fail there with different faults. -/
def SameAt (f : Value) (p p' : Position) : Prop :=
  ∀ d x, R.apply f d p = .ok x ↔ R.apply f d p' = .ok x

variable {R} {P : Pipe} {t : Transformer} {ts : List Transformer} {p p' : Position} {x : D}
  {xs ws : List D}

/-- Values that stand for data one by one go on standing for them. -/
theorem all_keeps {s s' : Store} {vs : List Value} {ds : List D}
    (h : List.Forall₂ (R.means s) vs ds) (kept : s.Keeps own s') : List.Forall₂ (R.means s') vs ds :=
  h.imp fun _ _ hm => R.means_keeps kept hm

/-- A function does the same at two places, whichever comes first. -/
theorem SameAt.symm {f : Value} (same : R.SameAt f p p') : R.SameAt f p' p :=
  fun d x => (same d x).symm

/-- The survivors of a list are that of its first element, if there is one, and those of the others.
-/
theorem survivors_cons_ok : R.survivors P (x :: xs) = .ok ws ↔
    ∃ o us, R.through P x = .ok o ∧ R.survivors P xs = .ok us ∧ ws = o.toList ++ us := by
  rw [survivors]
  constructor
  · intro h
    obtain ⟨o, ho, h⟩ := bind_eq_ok.mp h
    obtain ⟨us, hus, h⟩ := bind_eq_ok.mp h
    cases h
    exact ⟨o, us, ho, hus, rfl⟩
  · rintro ⟨o, us, ho, hus, rfl⟩
    exact bind_eq_ok.mpr ⟨o, ho, bind_eq_ok.mpr ⟨us, hus, rfl⟩⟩

/-- What a single transformer makes of a datum for which its function gives another one. -/
def settle (t : Transformer) (p : Position) (x y : D) : Except Interruption (Option D) :=
  match t with
  | .map _ => .ok (some y)
  | .filter _ =>
    match R.verdict y with
    | .ok true => .ok (some x)
    | .ok false => .ok none
    | .error tag => .error (.fault ⟨.predicate tag, p⟩)

/-- A value goes through one function by a call, and what comes of it is settled. -/
theorem through_single :
    R.through ⟨[t], p⟩ x = R.apply t.function x p >>= R.settle t p x := by
  cases t with
  | map f | filter f => rfl

/-- What passes several transformers passes the first and then the others. -/
theorem through_cons : R.through ⟨t :: ts, p⟩ x =
    R.through ⟨[t], p⟩ x >>= fun o => o.elim (.ok none) (R.through ⟨ts, p⟩) := by
  rw [through_single, bind_assoc]
  cases t with
  | map f => rfl
  | filter f =>
    show (R.apply f x p >>= _) = (R.apply f x p >>= _)
    congr 1
    funext y
    simp only [settle]
    cases R.verdict y with
    | error tag => rfl
    | ok b => cases b <;> rfl

/-- **What survives several transformers is what survives the others of what survives the first.** -/
theorem survivors_cons : R.survivors ⟨t :: ts, p⟩ xs = .ok ws ↔
    ∃ ys, R.survivors ⟨[t], p⟩ xs = .ok ys ∧ R.survivors ⟨ts, p⟩ ys = .ok ws := by
  induction xs generalizing ws with
  | nil =>
    constructor
    · intro h
      exact ⟨[], rfl, h⟩
    · rintro ⟨ys, hys, h⟩
      cases hys
      exact h
  | cons x xs ih =>
    constructor
    · intro h
      obtain ⟨o, us, ho, hus, rfl⟩ := survivors_cons_ok.mp h
      obtain ⟨ys, hys, hrest⟩ := ih.mp hus
      rw [through_cons] at ho
      obtain ⟨m, hm, ho⟩ := bind_eq_ok.mp ho
      refine ⟨m.toList ++ ys, survivors_cons_ok.mpr ⟨m, ys, hm, hys, rfl⟩, ?_⟩
      cases m with
      | none =>
        cases ho
        exact hrest
      | some y => exact survivors_cons_ok.mpr ⟨o, us, ho, hrest, rfl⟩
    · rintro ⟨zs, hzs, h⟩
      obtain ⟨m, ys, hm, hys, rfl⟩ := survivors_cons_ok.mp hzs
      have hthrough : ∀ {o}, m.elim (.ok none) (R.through ⟨ts, p⟩) = .ok o →
          R.through ⟨t :: ts, p⟩ x = .ok o := by
        intro o ho
        rw [through_cons]
        exact bind_eq_ok.mpr ⟨m, hm, ho⟩
      cases m with
      | none => exact survivors_cons_ok.mpr ⟨none, ws, hthrough rfl, ih.mpr ⟨ys, hys, h⟩, rfl⟩
      | some y =>
        obtain ⟨o, us, ho, hus, rfl⟩ := survivors_cons_ok.mp h
        exact survivors_cons_ok.mpr ⟨o, us, hthrough ho, ih.mpr ⟨ys, hys, hus⟩, rfl⟩

/-- What a pipe without transformers lets through. -/
theorem survivors_nil : R.survivors ⟨[], p⟩ xs = .ok xs := by
  induction xs with
  | nil => rfl
  | cons x xs ih => exact survivors_cons_ok.mpr ⟨some x, xs, rfl, ih, rfl⟩

/-- Where the function does the same, the value comes through alike. -/
theorem through_sameAt (same : R.SameAt t.function p p') {o : Option D}
    (h : R.through ⟨[t], p⟩ x = .ok o) : R.through ⟨[t], p'⟩ x = .ok o := by
  rw [through_single] at h ⊢
  obtain ⟨y, hy, hsettle⟩ := bind_eq_ok.mp h
  refine bind_eq_ok.mpr ⟨y, (same x y).mp hy, ?_⟩
  cases t with
  | map f => exact hsettle
  | filter f =>
    -- the position occurs only in the fault of a predicate, which is no survivor
    simp only [settle] at hsettle ⊢
    cases hverdict : R.verdict y with
    | ok b =>
      rw [hverdict] at hsettle
      cases b <;> exact hsettle
    | error tag =>
      rw [hverdict] at hsettle
      cases hsettle

/-- What survives a function survives it at another position. -/
theorem survivors_sameAt (same : R.SameAt t.function p p') (h : R.survivors ⟨[t], p⟩ xs = .ok ws) :
    R.survivors ⟨[t], p'⟩ xs = .ok ws := by
  induction xs generalizing ws with
  | nil => exact h
  | cons x xs ih =>
    obtain ⟨o, us, ho, hus, rfl⟩ := survivors_cons_ok.mp h
    exact survivors_cons_ok.mpr ⟨o, us, through_sameAt same ho, ih hus, rfl⟩

end Reading

/-! ## Streams that end -/

namespace Cursor

variable {own : SourceId → Prop} {D : Type} {R : Reading own D} {P : Pipe} {xs : List D} {k j : Nat}
  {a : Except Interruption (Option D)} {r : Nat → Except Interruption (Option D)}

/-- The stream of the elements of a list. -/
def ofList (xs : List D) (j : Nat) : Except Interruption (Option D) := .ok xs[j]?

/-- A stream gives the elements of a list and then ends. What it would give after its end does not
matter. -/
def Lists (r : Nat → Except Interruption (Option D)) (xs : List D) : Prop :=
  ∀ j, j ≤ xs.length → r j = ofList xs j

/-- A list is a stream that ends behind it. -/
theorem ofList_lists (xs : List D) : Lists (ofList xs) xs := fun _ _ => rfl

/-- An element of the stream is the next of the list. -/
theorem Lists.drop_eq {x : D} (h : Lists r xs) (hle : j ≤ xs.length) (hx : r j = .ok (some x)) :
    j < xs.length ∧ xs.drop j = x :: xs.drop (j + 1) := by
  rw [h j hle] at hx
  injection hx with hx
  obtain ⟨hlt, rfl⟩ := List.getElem?_eq_some_iff.mp hx
  exact ⟨hlt, List.drop_eq_getElem_cons hlt⟩

/-- Elements that are rejected leave the survivors as they are. -/
theorem Lists.survivors_of_rejected (h : Lists r xs) (hle : k ≤ j) (hj : j ≤ xs.length)
    (hbetween : ∀ i, k ≤ i → i < j → ∃ y, r i = .ok (some y) ∧ R.through P y = .ok none) :
    R.survivors P (xs.drop k) = R.survivors P (xs.drop j) := by
  obtain ⟨n, rfl⟩ := Nat.exists_eq_add_of_le hle
  induction n generalizing k with
  | zero => rfl
  | succ n ih =>
    obtain ⟨y, hy, hreject⟩ := hbetween k (Nat.le_refl _) (by omega)
    have hshift : k + (n + 1) = k + 1 + n := by omega
    rw [hshift] at hbetween hj ⊢
    rw [← ih (by omega) hj fun i hi hj => hbetween i (by omega) hj, (h.drop_eq (by omega) hy).2,
      Reading.survivors, hreject]
    show (R.survivors P (xs.drop (k + 1)) >>= fun rest => .ok rest) = _
    exact bind_pure _

/-- A search does not go beyond the end. -/
theorem Finds.le_length (hfinds : Finds R r P k a j) (h : Lists r xs) (hk : k ≤ xs.length) :
    j ≤ xs.length := by
  refine Nat.not_lt.mp fun hlt => ?_
  have hbetween : ∃ y, r xs.length = .ok (some y) ∧ R.through P y = .ok none := by
    cases hfinds with
    | element _ hbetween | stop _ hbetween => exact hbetween _ hk hlt
  obtain ⟨y, hy, -⟩ := hbetween
  exact absurd (h.drop_eq (Nat.le_refl _) hy).1 (Nat.lt_irrefl _)

/-- What a search finds is the first survivor of what the stream has left. -/
theorem Finds.survivors (hfinds : Finds R r P k a j) (h : Lists r xs) (hk : k ≤ xs.length) :
    R.survivors P (xs.drop k) = a >>= fun o => match o with
      | some y => (y :: ·) <$> R.survivors P (xs.drop (j + 1))
      | none => .ok [] := by
  have hlength := hfinds.le_length h hk
  cases hfinds with
  | element hle hbetween hj hx hne =>
    rw [h.survivors_of_rejected hle hlength hbetween, (h.drop_eq hlength hj).2, Reading.survivors, hx]
    cases a with
    | error e => rfl
    | ok o =>
      cases o with
      | none => exact absurd rfl hne
      | some y => rfl
  | stop hle hbetween hj hstop =>
    rw [h j hlength] at hj
    have hnone : xs[j]? = none := by
      cases hx : xs[j]? with
      | none => rfl
      | some x => exact absurd (hj.symm.trans (congrArg Except.ok hx)) (hstop x)
    have ha : a = .ok none := hj.symm.trans (congrArg Except.ok hnone)
    rw [h.survivors_of_rejected hle hlength hbetween, ha,
      List.drop_of_length_le (List.getElem?_eq_none_iff.mp hnone)]
    rfl

/-- A search over a stream that ends finds something, at its end at the latest. -/
theorem Lists.exists_finds (h : Lists r xs) (R : Reading own D) (P : Pipe) (hk : k ≤ xs.length) :
    ∃ a j, Finds R r P k a j := by
  obtain ⟨n, hn⟩ := Nat.exists_eq_add_of_le hk
  have hself : ∀ i, k ≤ i → i < k → ∃ y, r i = .ok (some y) ∧ R.through P y = .ok none :=
    fun i hi hlt => absurd hlt (Nat.not_lt.mpr hi)
  induction n generalizing k with
  | zero =>
    have hend : r k = .ok none :=
      (h k hk).trans (congrArg Except.ok (List.getElem?_eq_none (by omega)))
    exact ⟨.ok none, k, .stop (Nat.le_refl k) hself hend isStop_none⟩
  | succ n ih =>
    have hlt : k < xs.length := by omega
    have hx : r k = .ok (some xs[k]) :=
      (h k hk).trans (congrArg Except.ok (List.getElem?_eq_getElem hlt))
    by_cases hreject : R.through P xs[k] = .ok none
    · obtain ⟨a, j, hfinds⟩ := ih (Nat.succ_le_of_lt hlt) (by omega)
        fun i hi h => absurd h (Nat.not_lt.mpr hi)
      exact ⟨a, j, hfinds.of_rejected hx hreject⟩
    · exact ⟨_, k, .element (Nat.le_refl k) hself hx rfl hreject⟩

/-- What is found stands in the list. -/
theorem Finds.lt_length {y : D} (hfinds : Finds R r P k (.ok (some y)) j) (h : Lists r xs)
    (hk : k ≤ xs.length) : j < xs.length := by
  have hlength := hfinds.le_length h hk
  cases hfinds with
  | element _ _ hj => exact (h.drop_eq hlength hj).1
  | stop _ _ _ hstop => exact absurd rfl (hstop y)

end Cursor

/-! ## Collecting -/

namespace Setting

variable {D : Type} {E : Setting D} {b : SourceId} {s : Store} {q : SequenceId} {k j depth fuel : Nat}

section Rounds

variable {r : Nat → Except Interruption (Option D)}

/-- A member of a family that looks ahead with enough rounds holds what the cursor finds. -/
theorem Placed.lookahead_told {a : Except Interruption (Option D)} (h : E.Placed b r k s)
    (hq : E.watched q) (hb : (E.start.sequence q).source = b)
    (hfinds : Cursor.Finds E.reading r (E.pipe q) k a j) (hfuel : j < k + fuel)
    (hdepth : j < k + depth) :
    Told (fun s' o y => E.Moved b r s j s' ∧
        Option.Rel (fun v x => E.reading.means s' v x ∧ s'.Holds q v) o y)
      a (Sequence.lookahead E.call (.ofDepth E.call depth) fuel q s) := by
  have hsource := h.source_eq hq hb
  have hpipe := pipe_eq h.kept (E.exists_of_watched hq)
  have hseek := Cursor.seeks_of_finds hfinds
  have hout := lookahead_rounds (E.reads depth 1) hq fuel h.kept (u := .raw r k) (W := [b])
    (by rw [hsource]; exact h.stands) (Nat.le_refl 1)
  have moved : ∀ {s'}, E.Left s (s.sequence q).source (.raw r j) [b] s' → E.Moved b r s j s' := by
    intro s' left
    rw [hsource] at left
    exact left.moved h.kept
  rw [Looked, hpipe] at hout
  generalize Sequence.lookahead _ _ fuel q s = res at hout
  cases hout with
  | found hseek' hfound =>
    obtain ⟨rfl, rfl⟩ := hseek.unique hseek'
    exact .value ⟨moved hfound.2.1, .some ⟨hfound.1, hfound.2.2⟩⟩
  | ended hseek' left =>
    obtain ⟨rfl, rfl⟩ := hseek.unique hseek'
    exact .value ⟨moved left, .none⟩
  | failed hseek' left =>
    obtain ⟨rfl, rfl⟩ := hseek.unique hseek'
    exact .interruption
  | short hshort =>
    have hle := hfinds.le
    have hlt := hshort a _ hseek
    simp only [Supply.height, Supply.moved] at hlt
    omega

/-- A member that holds an element gives it, and the cursor goes on by one. -/
theorem Placed.next_held {v : Value} (h : E.Placed b r k s) (hq : E.watched q)
    (hb : (E.start.sequence q).source = b) (holds : s.Holds q v) (hdepth : 0 < depth)
    (fuel : Nat) (p : Position) :
    ∃ s', Sequence.next E.call (.ofDepth E.call depth) fuel q p s = .ok v s' ∧
      E.Moved b r s (k + 1) s' := by
  have hsource := h.source_eq hq hb
  obtain ⟨s', hnext, left, -⟩ | ⟨s', -, hshort⟩ := next_of_holds (E.reads depth 1) hq h.kept
    (u := .raw r k) (W := [b]) (by rw [hsource]; exact h.stands) (Nat.le_refl 1) holds fuel p
  · rw [hsource] at left
    exact ⟨s', hnext, left.moved h.kept⟩
  · exact absurd hdepth (Nat.not_lt.mpr (Nat.le_of_lt_succ hshort))

variable {xs : List D}

/-- Each round takes one survivor; those of the rounds before come first. -/
theorem Placed.foldAll_told (h : E.Placed b r k s) (hlists : Cursor.Lists r xs) (hq : E.watched q)
    (hb : (E.start.sequence q).source = b) (hk : k ≤ xs.length) (hfuel : xs.length < k + fuel)
    (hdepth : xs.length < depth) {items : List Value} {ds : List D}
    (hitems : List.Forall₂ (E.reading.means s) items.reverse ds) (p : Position) :
    Told (fun s' items => List.Forall₂ (E.reading.means s') items.reverse)
      ((ds ++ ·) <$> E.reading.survivors (E.pipe q) (xs.drop k))
      (Sequence.foldAll E.call (.ofDepth E.call depth) q p (fun items item => pure (item :: items))
        fuel items s) := by
  induction fuel generalizing k s items ds with
  | zero => omega
  | succ fuel ih =>
    obtain ⟨a, j, hfinds⟩ := hlists.exists_finds E.reading (E.pipe q) hk
    have hj := hfinds.le_length hlists hk
    have hle := hfinds.le
    have hrounds : j < k + (fuel + 1) := Nat.lt_of_le_of_lt hj hfuel
    have hlook := h.lookahead_told hq hb hfinds hrounds
      (Nat.lt_add_left k (Nat.lt_of_le_of_lt hj hdepth))
    rw [hfinds.survivors hlists hk, Sequence.foldAll]
    generalize hres : Sequence.lookahead _ _ (fuel + 1) q s = res at hlook
    cases hlook with
    | interruption =>
      rw [Action.bind_error (Sequence.atEnd_error hres)]
      exact .interruption
    | value hrel =>
      obtain ⟨moved, hrel⟩ := hrel
      rw [Action.bind_ok (Sequence.atEnd_ok hres)]
      have hmoved := Reading.all_keeps hitems moved.keeps
      cases hrel with
      | none =>
        rw [show (ds ++ ·) <$> ((.ok none : Except Interruption (Option D)) >>= _) = .ok (ds ++ [])
          from rfl, List.append_nil]
        exact .value hmoved
      | @some v y hheld =>
        obtain ⟨hm, holds⟩ := hheld
        obtain ⟨s₂, hnext, moved₂⟩ := moved.placed.next_held hq hb holds
          (Nat.zero_lt_of_lt hdepth) (fuel + 1) p
        have hitems₂ : List.Forall₂ (E.reading.means s₂) (v :: items).reverse (ds ++ [y]) := by
          rw [List.reverse_cons]
          exact Reading.all_keeps (List.rel_append hmoved (.cons hm .nil)) moved₂.keeps
        have hrest := ih moved₂.placed (hfinds.lt_length hlists hk) (by omega) hitems₂
        show Told _ ((ds ++ ·) <$> (y :: ·) <$> _) ((Sequence.next _ _ _ q p >>= _) _)
        rw [Action.bind_ok hnext]
        simpa [Functor.map_map, List.append_assoc] using hrest

/-- **A member of a family over a stream that ends gives what survives of it**, if there are more
rounds than elements. -/
theorem Placed.collect_told (h : E.Placed b r k s) (hlists : Cursor.Lists r xs) (hq : E.watched q)
    (hb : (E.start.sequence q).source = b) (hk : k ≤ xs.length) (hfuel : xs.length < fuel) :
    Told (fun s' => List.Forall₂ (E.reading.means s'))
      (E.reading.survivors (E.pipe q) (xs.drop k))
      (Sequence.collect E.call (.ofDepth E.call fuel) fuel q s) := by
  have hfold := h.foldAll_told hlists hq hb hk (Nat.lt_add_left k hfuel) hfuel
    (show List.Forall₂ (E.reading.means s) [].reverse [] from .nil) (s.sequence q).position
  rw [Sequence.collect, Action.view_bind]
  have hsame : E.reading.survivors (E.pipe q) (xs.drop k) =
      (([] ++ ·) <$> E.reading.survivors (E.pipe q) (xs.drop k)) >>= .ok := by
    rw [show (fun ws : List D => [] ++ ws) = id from rfl, id_map]
    exact (bind_pure _).symm
  rw [hsame]
  exact hfold.bind fun hrel => .value hrel

end Rounds

end Setting

end Abacus
