import Abacus.Proofs.Sequence.Datum
import Abacus.Proofs.Sequence.Requests
import Mathlib.Data.List.Forall2

/-!
# A family over one stream

A sequence over a stream, and all that is derived from it by `map` and `filter`, share one source.
`Cursor.Serves` is a machine for such a family whose only state is a cursor into the stream: a
request finds the first element from the cursor on that its member does not reject. Caches, stamps
and the counter of the source do not occur in it.

**The law** (`Setting.family_refines_cursor`): in every interleaving of requests to the members, each
call that returns gives what the machine gives, and the counter of the source is the cursor; and a
call whose answer the machine has does return, if it is given as many rounds as it needs.
-/

namespace Abacus

/-! ## New families -/

namespace Store

/-- A source from which nothing has been read, with sequences over it that have not looked ahead. -/
structure Fresh (s : Store) (b : SourceId) (g : Generator) (family : SequenceId → Prop) : Prop where
  exists_source : b.index < s.sources.size
  source : s.source b = ⟨g, 0, false⟩
  exists_of_family : ∀ {q : SequenceId}, family q → q.index < s.sequences.size
  source_of_family : ∀ {q : SequenceId}, family q → (s.sequence q).source = b
  pending : ∀ {q : SequenceId}, family q → (s.sequence q).pending = none

variable {s s' : Store} {g : Generator} {p : Position} {q q' : SequenceId}

/-- A sequence that is created begins a family. -/
theorem fresh_of_create (h : Sequence.create g p s = .ok (.sequence q) s') :
    s'.Fresh ⟨s.sources.size⟩ g (· = q) := by
  cases h
  have hself := sequence_addSequence_new (s := (s.addSource g).2) ⟨⟨s.sources.size⟩, [], none, p⟩
  refine ⟨?_, source_addSource_new g, ?_, ?_, ?_⟩
  · simp [addSequence, addSource]
  · rintro _ rfl
    simp [addSequence, addSource]
  · rintro _ rfl
    exact congrArg Sequence.source hself
  · rintro _ rfl
    exact congrArg Sequence.pending hself

/-- A sequence that is derived from a member joins the family. -/
theorem Fresh.of_derive {b : SourceId} {family : SequenceId → Prop} {t : Transformer}
    (h : s.Fresh b g family) (hq : family q)
    (hderive : Sequence.derive q t s = .ok (.sequence q') s') :
    s'.Fresh b g fun x => family x ∨ x = q' := by
  cases hderive
  have hother : ∀ (new : Sequence) {x : SequenceId}, family x →
      (s.addSequence new).2.sequence x = s.sequence x :=
    fun new _ hx => sequence_addSequence_of_lt new (h.exists_of_family hx)
  refine ⟨h.exists_source, h.source, ?_, ?_, ?_⟩
  · rintro x (hx | rfl)
    · have := h.exists_of_family hx
      simp only [addSequence, Array.size_push]
      omega
    · simp [addSequence]
  · rintro x (hx | rfl)
    · exact (congrArg Sequence.source (hother _ hx)).trans (h.source_of_family hx)
    · exact (congrArg Sequence.source (sequence_addSequence_new _)).trans (h.source_of_family hq)
  · rintro x (hx | rfl)
    · exact (congrArg Sequence.pending (hother _ hx)).trans (h.pending hx)
    · exact congrArg Sequence.pending (sequence_addSequence_new _)

/-- Some of the members of a family are a family. -/
theorem Fresh.mono {b : SourceId} {family family' : SequenceId → Prop} (h : s.Fresh b g family)
    (hsub : ∀ {x : SequenceId}, family' x → family x) : s.Fresh b g family' :=
  ⟨h.exists_source, h.source, fun hx => h.exists_of_family (hsub hx),
    fun hx => h.source_of_family (hsub hx), fun hx => h.pending (hsub hx)⟩

end Store

/-! ## Runs of requests -/

namespace Request

/-- Calls one after the other, each with what it returns; a call that fails does not end the run. -/
inductive Run (call : Call) (budget : Nat) :
    Store → List (Request × Except Interruption (Reply Value)) → Store → Prop
  | nil {s : Store} : Run call budget s [] s
  | cons {s s' s'' : Store} {request : Request} {reply : Except Interruption (Reply Value)}
    {rest : List (Request × Except Interruption (Reply Value))} :
    request.Returns call budget s reply s' → Run call budget s' rest s'' →
    Run call budget s ((request, reply) :: rest) s''

end Request

/-! ## The machine -/

namespace Cursor

variable {own : SourceId → Prop} {D : Type} (R : Reading own D)
  (r : Nat → Except Interruption (Option D))

/-- From a cursor on, a pipe rejects all elements of a stream before a place, and what there is at
the place is the answer: what the pipe makes of the element there, or the end, or an error of the
stream. -/
inductive Finds (P : Pipe) (k : Nat) (a : Except Interruption (Option D)) (j : Nat) : Prop
  | element {x : D} : k ≤ j → (∀ i, k ≤ i → i < j → ∃ y, r i = .ok (some y) ∧
    R.through P y = .ok none) → r j = .ok (some x) → R.through P x = a → a ≠ .ok none →
    Finds P k a j
  | stop : k ≤ j → (∀ i, k ≤ i → i < j → ∃ y, r i = .ok (some y) ∧ R.through P y = .ok none) →
    r j = a → IsStop a → Finds P k a j

/-- The answer of the machine to a request, and the cursor after it. -/
inductive Serves (pipe : SequenceId → Pipe) :
    Request → Nat → Except Interruption (Reply D) → Nat → Prop
  | next {q : SequenceId} {p : Position} {k j : Nat} {x : D} :
    Finds R r (pipe q) k (.ok (some x)) j → Serves pipe (.next q p) k (.ok (.element x)) (j + 1)
  | next_exhausted {q : SequenceId} {p : Position} {k j : Nat} : Finds R r (pipe q) k (.ok none) j →
    Serves pipe (.next q p) k (.error (.fault ⟨.exhausted, p⟩)) j
  | next_error {q : SequenceId} {p : Position} {k j : Nat} {e : Interruption} :
    Finds R r (pipe q) k (.error e) j → Serves pipe (.next q p) k (.error e) j
  | peek {q : SequenceId} {p : Position} {k j : Nat} {x : D} :
    Finds R r (pipe q) k (.ok (some x)) j → Serves pipe (.peek q p) k (.ok (.element x)) j
  | peek_exhausted {q : SequenceId} {p : Position} {k j : Nat} : Finds R r (pipe q) k (.ok none) j →
    Serves pipe (.peek q p) k (.error (.fault ⟨.exhausted, p⟩)) j
  | peek_error {q : SequenceId} {p : Position} {k j : Nat} {e : Interruption} :
    Finds R r (pipe q) k (.error e) j → Serves pipe (.peek q p) k (.error e) j
  | atEnd {q : SequenceId} {k j : Nat} {a : Option D} : Finds R r (pipe q) k (.ok a) j →
    Serves pipe (.atEnd q) k (.ok (.truth a.isNone)) j
  | atEnd_error {q : SequenceId} {k j : Nat} {e : Interruption} :
    Finds R r (pipe q) k (.error e) j → Serves pipe (.atEnd q) k (.error e) j
  /-- Elements are skipped as they come from the stream, up to its end. -/
  | skip {q : SequenceId} {n k j : Nat} : k ≤ j →
    (∀ i, k ≤ i → i < j → ∃ y, r i = .ok (some y)) →
    j = k + n ∨ j < k + n ∧ r j = .ok none → Serves pipe (.skip q n) k (.ok .done) j
  | skip_error {q : SequenceId} {n k j : Nat} {e : Interruption} : k ≤ j →
    (∀ i, k ≤ i → i < j → ∃ y, r i = .ok (some y)) → j < k + n → r j = .error e →
    Serves pipe (.skip q n) k (.error e) j

/-- The machine serves requests one after the other. -/
inductive Run (pipe : SequenceId → Pipe) :
    Nat → List (Request × Except Interruption (Reply D)) → Nat → Prop
  | nil {k : Nat} : Run pipe k [] k
  | cons {k k' k'' : Nat} {request : Request} {answer : Except Interruption (Reply D)}
    {rest : List (Request × Except Interruption (Reply D))} :
    Serves R r pipe request k answer k' → Run pipe k' rest k'' →
    Run pipe k ((request, answer) :: rest) k''

variable {R r}

/-- A search does not go back. -/
theorem Finds.le {P : Pipe} {k j : Nat} {a : Except Interruption (Option D)}
    (h : Finds R r P k a j) : k ≤ j := by
  cases h with
  | element h | stop h => exact h

/-- A search that finds something from the next place on finds it from here, if the element here is
rejected. -/
theorem Finds.of_rejected {P : Pipe} {k j : Nat} {a : Except Interruption (Option D)} {x : D}
    (hk : r k = .ok (some x)) (hx : R.through P x = .ok none) (h : Finds R r P (k + 1) a j) :
    Finds R r P k a j := by
  have hall : ∀ {j}, (∀ i, k + 1 ≤ i → i < j → ∃ y, r i = .ok (some y) ∧ R.through P y = .ok none) →
      ∀ i, k ≤ i → i < j → ∃ y, r i = .ok (some y) ∧ R.through P y = .ok none := by
    intro j hbetween i hi hj
    obtain rfl | hlt := Nat.eq_or_lt_of_le hi
    · exact ⟨x, hk, hx⟩
    · exact hbetween i hlt hj
  cases h with
  | element hle hbetween hj ha hne =>
    exact .element (Nat.le_of_succ_le hle) (hall hbetween) hj ha hne
  | stop hle hbetween hj hstop => exact .stop (Nat.le_of_succ_le hle) (hall hbetween) hj hstop

/-- What a sequence over a stream finds, the cursor finds. -/
theorem finds_of_seeks {P : Pipe} {k : Nat} {u w : Supply D} {a : Except Interruption (Option D)} :
    Seeks R P u a w → u = .raw r k → ∃ j, w = .raw r j ∧ Finds R r P k a j
  | .stop hlook stop, hu => by
    subst hu
    cases hlook with
    | raw e =>
      exact ⟨k, rfl, .stop (Nat.le_refl _) (fun _ h h' => absurd h' (Nat.not_lt.mpr h)) e stop⟩
  | .found hlook hx ne, hu => by
    subst hu
    cases hlook with
    | raw e =>
      exact ⟨k, rfl, .element (Nat.le_refl _) (fun _ h h' => absurd h' (Nat.not_lt.mpr h)) e hx ne⟩
  | .reject (w := v) (x := x) hlook hx g, hu => by
    have hv : v = .raw r k ∧ r k = .ok (some x) := by
      subst hu
      cases hlook with
      | raw e => exact ⟨rfl, e⟩
    obtain ⟨j, rfl, h⟩ := finds_of_seeks (k := k + 1) g (by rw [hv.1]; rfl)
    exact ⟨j, rfl, h.of_rejected hv.2 hx⟩

/-- What the cursor finds, a sequence over the stream finds. -/
theorem seeks_of_finds {P : Pipe} {k j : Nat} {a : Except Interruption (Option D)}
    (h : Finds R r P k a j) : Seeks R P (.raw r k) a (.raw r j) := by
  obtain ⟨n, rfl⟩ := Nat.exists_eq_add_of_le h.le
  induction n generalizing k with
  | zero =>
    cases h with
    | element _ _ hj hx hne => exact .found (.raw hj) hx hne
    | stop _ _ hj stop => exact .stop (.raw hj) stop
  | succ n ih =>
    have hshift : k + (n + 1) = k + 1 + n := by omega
    rw [hshift] at h ⊢
    cases h with
    | element _ hbetween hj hx hne =>
      obtain ⟨y, hy, hreject⟩ := hbetween k (Nat.le_refl _) (by omega)
      refine .reject (.raw hy) hreject (ih (.element (by omega) (fun i h h' => ?_) hj hx hne))
      exact hbetween i (by omega) h'
    | stop _ hbetween hj stop =>
      obtain ⟨y, hy, hreject⟩ := hbetween k (Nat.le_refl _) (by omega)
      refine .reject (.raw hy) hreject (ih (.stop (by omega) (fun i h h' => ?_) hj stop))
      exact hbetween i (by omega) h'

/-- What is skipped of a stream, the cursor passes over. -/
theorem skip_of_skips {n k : Nat} {u w : Supply D} {a : Except Interruption Unit}
    (h : Skips R n u a w) (hu : u = .raw r k) :
    ∃ j, w = .raw r j ∧ k ≤ j ∧ (∀ i, k ≤ i → i < j → ∃ y, r i = .ok (some y)) ∧
      (a = .ok () ∧ (j = k + n ∨ j < k + n ∧ r j = .ok none) ∨
        ∃ e, a = .error e ∧ j < k + n ∧ r j = .error e) := by
  induction h generalizing k with
  | enough =>
    exact ⟨k, hu, Nat.le_refl _, fun _ h h' => absurd h' (Nat.not_lt.mpr h), .inl ⟨rfl, .inl rfl⟩⟩
  | ended hlook =>
    subst hu
    cases hlook with
    | raw hk =>
      exact ⟨k, rfl, Nat.le_refl _, fun _ h h' => absurd h' (Nat.not_lt.mpr h),
        .inl ⟨rfl, .inr ⟨by omega, hk⟩⟩⟩
  | failed hlook =>
    subst hu
    cases hlook with
    | raw hk =>
      exact ⟨k, rfl, Nat.le_refl _, fun _ h h' => absurd h' (Nat.not_lt.mpr h),
        .inr ⟨_, rfl, by omega, hk⟩⟩
  | more hlook _ ih =>
    subst hu
    cases hlook with
    | raw hk =>
      obtain ⟨j, hw, hle, hbetween, hend⟩ := ih rfl
      refine ⟨j, hw, by omega, fun i hi hj => ?_, ?_⟩
      · obtain rfl | hlt := Nat.eq_or_lt_of_le hi
        · exact ⟨_, hk⟩
        · exact hbetween i hlt hj
      · rcases hend with ⟨ha, rfl | ⟨hlt, hj⟩⟩ | ⟨e, ha, hlt, hj⟩
        · exact .inl ⟨ha, .inl (by omega)⟩
        · exact .inl ⟨ha, .inr ⟨by omega, hj⟩⟩
        · exact .inr ⟨e, ha, by omega, hj⟩

/-- What the cursor passes over up to a place is skipped. -/
theorem skips_of_between {n k j : Nat} {a : Except Interruption Unit} {w : Supply D} (hle : k ≤ j)
    (hn : j ≤ k + n) (hbetween : ∀ i, k ≤ i → i < j → ∃ y, r i = .ok (some y))
    (hrest : Skips R (k + n - j) (.raw r j) a w) : Skips R n (.raw r k) a w := by
  obtain ⟨m, rfl⟩ := Nat.exists_eq_add_of_le hle
  induction m generalizing k n with
  | zero =>
    have hsame : k + n - (k + 0) = n := by omega
    rw [hsame] at hrest
    exact hrest
  | succ m ih =>
    obtain ⟨y, hy⟩ := hbetween k (Nat.le_refl _) (by omega)
    obtain ⟨n, rfl⟩ : ∃ n', n = n' + 1 := ⟨n - 1, by omega⟩
    have hshift : k + (m + 1) = k + 1 + m := by omega
    rw [hshift] at hrest hbetween hn
    refine .more (.raw hy) (ih (by omega) (by omega) (fun i hi hj => hbetween i (by omega) hj) ?_)
    have hsame : k + 1 + n - (k + 1 + m) = k + (n + 1) - (k + 1 + m) := by omega
    rw [hsame]
    exact hrest

/-- The machine serves what the stream answers. -/
theorem serves_of_answers (pipe : SequenceId → Pipe) {request : Request} {k : Nat}
    {a : Except Interruption (Reply D)} {w : Supply D}
    (h : Answers R (pipe request.sequence) request (.raw r k) a w) :
    ∃ j, w = .raw r j ∧ Serves R r pipe request k a j := by
  cases h with
  | next hseek =>
    obtain ⟨j, rfl, hfinds⟩ := finds_of_seeks hseek rfl
    exact ⟨j + 1, rfl, .next hfinds⟩
  | next_exhausted hseek =>
    obtain ⟨j, rfl, hfinds⟩ := finds_of_seeks hseek rfl
    exact ⟨j, rfl, .next_exhausted hfinds⟩
  | next_error hseek =>
    obtain ⟨j, rfl, hfinds⟩ := finds_of_seeks hseek rfl
    exact ⟨j, rfl, .next_error hfinds⟩
  | peek hseek =>
    obtain ⟨j, rfl, hfinds⟩ := finds_of_seeks hseek rfl
    exact ⟨j, rfl, .peek hfinds⟩
  | peek_exhausted hseek =>
    obtain ⟨j, rfl, hfinds⟩ := finds_of_seeks hseek rfl
    exact ⟨j, rfl, .peek_exhausted hfinds⟩
  | peek_error hseek =>
    obtain ⟨j, rfl, hfinds⟩ := finds_of_seeks hseek rfl
    exact ⟨j, rfl, .peek_error hfinds⟩
  | atEnd hseek =>
    obtain ⟨j, rfl, hfinds⟩ := finds_of_seeks hseek rfl
    exact ⟨j, rfl, .atEnd hfinds⟩
  | atEnd_error hseek =>
    obtain ⟨j, rfl, hfinds⟩ := finds_of_seeks hseek rfl
    exact ⟨j, rfl, .atEnd_error hfinds⟩
  | skip hskips =>
    obtain ⟨j, rfl, hle, hbetween, ⟨-, hend⟩ | ⟨e, he, -⟩⟩ := skip_of_skips hskips rfl
    · exact ⟨j, rfl, .skip hle hbetween hend⟩
    · cases he
  | skip_error hskips =>
    obtain ⟨j, rfl, hle, hbetween, ⟨he, -⟩ | ⟨e, he, hlt, hj⟩⟩ := skip_of_skips hskips rfl
    · cases he
    · cases he
      exact ⟨j, rfl, .skip_error hle hbetween hlt hj⟩

/-- The stream answers what the machine serves. -/
theorem answers_of_serves {pipe : SequenceId → Pipe} {request : Request} {k j : Nat}
    {a : Except Interruption (Reply D)} (h : Serves R r pipe request k a j) :
    Answers R (pipe request.sequence) request (.raw r k) a (.raw r j) := by
  cases h with
  | next hfinds => exact .next (seeks_of_finds hfinds)
  | next_exhausted hfinds => exact .next_exhausted (seeks_of_finds hfinds)
  | next_error hfinds => exact .next_error (seeks_of_finds hfinds)
  | peek hfinds => exact .peek (seeks_of_finds hfinds)
  | peek_exhausted hfinds => exact .peek_exhausted (seeks_of_finds hfinds)
  | peek_error hfinds => exact .peek_error (seeks_of_finds hfinds)
  | atEnd hfinds => exact .atEnd (seeks_of_finds hfinds)
  | atEnd_error hfinds => exact .atEnd_error (seeks_of_finds hfinds)
  | skip hle hbetween hend =>
    obtain rfl | ⟨hlt, hj⟩ := hend
    · refine .skip (skips_of_between hle (Nat.le_refl _) hbetween ?_)
      rw [Nat.sub_self]
      exact .enough
    · refine .skip (skips_of_between hle (Nat.le_of_lt hlt) hbetween ?_)
      obtain ⟨m, hm⟩ := Nat.exists_eq_succ_of_ne_zero (Nat.sub_ne_zero_of_lt hlt)
      rw [hm]
      exact .ended (.raw hj)
  | skip_error hle hbetween hlt hj =>
    refine .skip_error (skips_of_between hle (Nat.le_of_lt hlt) hbetween ?_)
    obtain ⟨m, hm⟩ := Nat.exists_eq_succ_of_ne_zero (Nat.sub_ne_zero_of_lt hlt)
    rw [hm]
    exact .failed (.raw hj)

/-- The machine has one answer. -/
theorem Serves.unique {pipe : SequenceId → Pipe} {request : Request} {k j j' : Nat}
    {a a' : Except Interruption (Reply D)} (h : Serves R r pipe request k a j)
    (h' : Serves R r pipe request k a' j') : a = a' ∧ j = j' := by
  obtain ⟨ha, hj⟩ := (answers_of_serves h).unique (answers_of_serves h')
  injection hj with _ hj
  exact ⟨ha, hj⟩

/-- Nor does a request. -/
theorem Serves.le {pipe : SequenceId → Pipe} {request : Request} {k j : Nat}
    {a : Except Interruption (Reply D)} (h : Serves R r pipe request k a j) : k ≤ j := by
  cases h with
  | next hf => exact Nat.le_succ_of_le hf.le
  | next_exhausted hf | next_error hf | peek hf | peek_exhausted hf | peek_error hf | atEnd hf
  | atEnd_error hf => exact hf.le
  | skip hk | skip_error hk => exact hk

/-- Nor do several. -/
theorem Run.le {pipe : SequenceId → Pipe} {k j : Nat}
    {answers : List (Request × Except Interruption (Reply D))} (h : Run R r pipe k answers j) :
    k ≤ j := by
  induction h with
  | nil => exact Nat.le_refl _
  | cons hserves _ ih => exact Nat.le_trans hserves.le ih

end Cursor

/-! ## One request -/

namespace Setting

variable {D : Type} {E : Setting D}

/-- The source of a family stands at a place of its stream. -/
structure Placed (E : Setting D) (b : SourceId) (r : Nat → Except Interruption (Option D)) (k : Nat)
    (s : Store) : Prop where
  kept : E.start.Keeps E.own s
  stands : E.Stands s b (.raw r k) [b]

/-- The source of a family has come to a place of its stream. -/
structure Moved (E : Setting D) (b : SourceId) (r : Nat → Except Interruption (Option D)) (s : Store)
    (k : Nat) (s' : Store) : Prop where
  placed : E.Placed b r k s'
  keeps : s.Keeps E.own s'

/-- What a reading leaves of a single source is that it has moved. -/
theorem Left.moved {b : SourceId} {r : Nat → Except Interruption (Option D)} {k : Nat} {s s' : Store}
    (h : E.Left s b (.raw r k) [b] s') (kept : E.start.Keeps E.own s) : E.Moved b r s k s' :=
  ⟨⟨h.kept kept, h.stands⟩, h.keeps.mono h.stands.own_of_mem⟩

/-- A member of a family stays over the source of the family. -/
theorem Placed.source_eq {b : SourceId} {r : Nat → Except Interruption (Option D)} {k : Nat}
    {s : Store} {q : SequenceId} (h : E.Placed b r k s) (hq : E.watched q)
    (hb : (E.start.sequence q).source = b) : (s.sequence q).source = b :=
  (h.kept.source_eq (E.exists_of_watched hq)).trans hb

/-- How a call ends, told by what the machine answers. -/
inductive Served (E : Setting D) (b : SourceId) (r : Nat → Except Interruption (Option D)) (k : Nat)
    (budget : Nat) (request : Request) (s : Store) :
    EStateM.Result Interruption Store (Reply Value) → Prop
  | value {reply : Reply Value} {answer : Reply D} {k' : Nat} {s' : Store} :
    Cursor.Serves E.reading r E.pipe request k (.ok answer) k' →
    E.reading.Shows s' (.ok reply) (.ok answer) → E.Moved b r s k' s' →
    Served E b r k budget request s (.ok reply s')
  | error {e : Interruption} {k' : Nat} {s' : Store} :
    Cursor.Serves E.reading r E.pipe request k (.error e) k' → E.Moved b r s k' s' →
    Served E b r k budget request s (.error e s')
  | short {s' : Store} :
    (∀ answer k', Cursor.Serves E.reading r E.pipe request k answer k' → budget ≤ k') →
    Served E b r k budget request s (.error .outOfFuel s')

/-- **A request to a member of a family ends as the machine serves it**, or it has fewer rounds than
the machine has steps to make. -/
theorem Placed.served {s : Store} {b : SourceId} {r : Nat → Except Interruption (Option D)} {k : Nat}
    (h : E.Placed b r k s) (request : Request) (hq : E.watched request.sequence)
    (hb : (E.start.sequence request.sequence).source = b) (budget : Nat) :
    E.Served b r k budget request s (request.perform E.call budget s) := by
  have hsource := h.source_eq hq hb
  have hpipe := pipe_eq h.kept (E.exists_of_watched hq)
  have hout := Stands.answered (u := .raw r k) (W := [b]) (by rw [hsource]; exact h.stands) h.kept hq
    budget
  have moved : ∀ {j s'}, E.Left s (s.sequence request.sequence).source (.raw r j) [b] s' →
      E.Moved b r s j s' := by
    intro j s' left
    rw [hsource] at left
    exact left.moved h.kept
  generalize request.perform E.call budget s = res at hout
  cases hout with
  | value hanswer hshows left =>
    rw [hpipe] at hanswer
    obtain ⟨j, rfl, hserves⟩ := Cursor.serves_of_answers E.pipe hanswer
    exact .value hserves hshows (moved left)
  | error hanswer left =>
    rw [hpipe] at hanswer
    obtain ⟨j, rfl, hserves⟩ := Cursor.serves_of_answers E.pipe hanswer
    exact .error hserves (moved left)
  | short hshort =>
    refine .short fun answer k' hserves => ?_
    rw [hpipe] at hshort
    have := hshort _ _ (Cursor.answers_of_serves hserves)
    simp only [Supply.height, Supply.moved] at this
    omega

/-! ## Runs -/

/-- A source of which nothing has been read is placed at its beginning. -/
theorem Placed.of_fresh {b : SourceId} {g : Generator} (h : E.start.Fresh b g E.watched)
    (own : E.own b) (hat : E.At E.start (E.stream b) 0 g) : E.Placed b (E.stream b) 0 E.start := by
  have unread : E.Unread b g := ⟨h.exists_source, own, h.source, fun hq _ => h.pending hq⟩
  exact ⟨.refl _ _, unread.stands (.raw hat) ⟨rfl, rfl⟩ List.not_mem_nil⟩

/-- A request and what it returns show what the machine answers to it. -/
def ShowsTo (E : Setting D) (s : Store) (reply : Request × Except Interruption (Reply Value))
    (answer : Request × Except Interruption (Reply D)) : Prop :=
  reply.1 = answer.1 ∧ E.reading.Shows s reply.2 answer.2

/-- What a reply shows it shows while the store keeps what it had. -/
theorem ShowsTo.keeps {s s' : Store} {reply : Request × Except Interruption (Reply Value)}
    {answer : Request × Except Interruption (Reply D)} (h : E.ShowsTo s reply answer)
    (kept : s.Keeps E.own s') : E.ShowsTo s' reply answer :=
  ⟨h.1, h.2.keeps kept⟩

section Runs

variable {b : SourceId} {r : Nat → Except Interruption (Option D)} {budget : Nat}

/-- What a run returns is what the machine gives, step by step. -/
theorem Placed.run {s s' : Store} {k : Nat}
    {replies : List (Request × Except Interruption (Reply Value))} (h : E.Placed b r k s)
    (run : Request.Run E.call budget s replies s')
    (members : ∀ e ∈ replies, E.watched e.1.sequence ∧ (E.start.sequence e.1.sequence).source = b) :
    ∃ answers k', Cursor.Run E.reading r E.pipe k answers k' ∧
      List.Forall₂ (E.ShowsTo s') replies answers ∧ E.Moved b r s k' s' := by
  induction run generalizing k with
  | nil => exact ⟨[], k, .nil, .nil, h, .refl _ _⟩
  | @cons s s₁ s₂ request reply rest returns _ ih =>
    obtain ⟨hq, hb⟩ := members (request, reply) List.mem_cons_self
    have hrest := fun e he => members e (List.mem_cons_of_mem _ he)
    have hserved := h.served request hq hb budget
    obtain ⟨answer, k₁, hserves, hshows, moved⟩ : ∃ answer k₁,
        Cursor.Serves E.reading r E.pipe request k answer k₁ ∧ E.reading.Shows s₁ reply answer ∧
          E.Moved b r s k₁ s₁ := by
      cases returns with
      | value hres =>
        rw [hres] at hserved
        cases hserved with
        | value hserves hshows moved => exact ⟨_, _, hserves, hshows, moved⟩
      | interruption hres hne =>
        rw [hres] at hserved
        cases hserved with
        | error hserves moved => exact ⟨_, _, hserves, .error, moved⟩
        | short => exact absurd rfl hne
    obtain ⟨answers, k₂, hrun, hall, moved₂⟩ := ih moved.placed hrest
    have hfirst : E.ShowsTo s₂ (request, reply) (request, answer) :=
      ShowsTo.keeps ⟨rfl, hshows⟩ moved₂.keeps
    exact ⟨(request, answer) :: answers, k₂, .cons hserves hrun, .cons hfirst hall, moved₂.placed,
      moved.keeps.trans moved₂.keeps⟩

/-- A run returns if the machine has answers and there are more rounds than it has steps to make. -/
theorem Placed.returns {s : Store} {k k' : Nat}
    {answers : List (Request × Except Interruption (Reply D))} (h : E.Placed b r k s)
    (run : Cursor.Run E.reading r E.pipe k answers k') (hbudget : k' < budget)
    (members : ∀ e ∈ answers, E.watched e.1.sequence ∧ (E.start.sequence e.1.sequence).source = b)
    (ends : ∀ e ∈ answers, e.2 ≠ .error .outOfFuel) :
    ∃ replies s', Request.Run E.call budget s replies s' ∧
      List.Forall₂ (E.ShowsTo s') replies answers ∧ E.Moved b r s k' s' := by
  induction run generalizing s with
  | nil => exact ⟨[], s, .nil, .nil, h, .refl _ _⟩
  | @cons k k₁ k₂ request answer rest hserves hrun ih =>
    obtain ⟨hq, hb⟩ := members (request, answer) List.mem_cons_self
    have hends : answer ≠ .error .outOfFuel := ends (request, answer) List.mem_cons_self
    obtain ⟨reply, s₁, hreturns, hshows, moved⟩ : ∃ reply s₁,
        request.Returns E.call budget s reply s₁ ∧ E.reading.Shows s₁ reply answer ∧
          E.Moved b r s k₁ s₁ := by
      have hserved := h.served request hq hb budget
      generalize hres : request.perform E.call budget s = result at hserved
      cases hserved with
      | value hserves' hshows moved =>
        obtain ⟨rfl, rfl⟩ := hserves.unique hserves'
        exact ⟨_, _, .value hres, hshows, moved⟩
      | error hserves' moved =>
        obtain ⟨rfl, rfl⟩ := hserves.unique hserves'
        exact ⟨_, _, .interruption hres fun e => hends (e ▸ rfl), .error, moved⟩
      | short hshort =>
        have := hshort _ _ hserves
        have := hrun.le
        omega
    obtain ⟨replies, s₂, hrun₂, hall, moved₂⟩ := ih moved.placed hbudget
      (fun e he => members e (List.mem_cons_of_mem _ he))
      (fun e he => ends e (List.mem_cons_of_mem _ he))
    have hfirst : E.ShowsTo s₂ (request, reply) (request, answer) :=
      ShowsTo.keeps ⟨rfl, hshows⟩ moved₂.keeps
    exact ⟨(request, reply) :: replies, s₂, .cons hreturns hrun₂, .cons hfirst hall, moved₂.placed,
      moved.keeps.trans moved₂.keeps⟩

/-- **Calls to a family give what a single cursor gives**, in every order and to all its members. A
call that returns gives the answer of the machine; the counter of the source is the cursor, and an
element that a member holds from the time of the cursor is what the machine would give it. A call
that has an answer returns, with as many rounds as it needs. -/
theorem family_refines_cursor {g : Generator} (fresh : E.start.Fresh b g E.watched) (own : E.own b)
    (hat : E.At E.start (E.stream b) 0 g) (budget : Nat) :
    (∀ {replies : List (Request × Except Interruption (Reply Value))} {s' : Store},
      Request.Run E.call budget E.start replies s' → (∀ e ∈ replies, E.watched e.1.sequence) →
      ∃ answers k, Cursor.Run E.reading (E.stream b) E.pipe 0 answers k ∧
        List.Forall₂ (E.ShowsTo s') replies answers ∧ (s'.source b).advanced = k ∧
        ∀ q, E.watched q → ∀ n v, (s'.sequence q).pending = some (n, v) → n ≤ k ∧
          (n = k → ∃ x, Cursor.Finds E.reading (E.stream b) (E.pipe q) k (.ok (some x)) k ∧
            E.reading.means s' v x)) ∧
    (∀ {answers : List (Request × Except Interruption (Reply D))} {k : Nat},
      Cursor.Run E.reading (E.stream b) E.pipe 0 answers k → k < budget →
      (∀ e ∈ answers, E.watched e.1.sequence ∧ e.2 ≠ .error .outOfFuel) →
      ∃ replies s', Request.Run E.call budget E.start replies s' ∧
        List.Forall₂ (E.ShowsTo s') replies answers ∧ (s'.source b).advanced = k) := by
  have placed := Placed.of_fresh fresh own hat
  refine ⟨fun run members => ?_, @fun answers k run hbudget members => ?_⟩
  · obtain ⟨answers, k, hrun, hall, moved⟩ :=
      placed.run run fun e he => ⟨members e he, fresh.source_of_family (members e he)⟩
    have hcounted : k = _ := moved.placed.stands.counted.2
    refine ⟨answers, k, hrun, hall, hcounted.symm, fun q hq n v hp => ?_⟩
    have hsource := (moved.keeps.source_eq (E.exists_of_watched hq)).trans (fresh.source_of_family hq)
    obtain ⟨hle, hlive⟩ := moved.placed.stands.coherent hq hsource n v hp
    rw [hsource, ← hcounted] at hle hlive
    refine ⟨hle, fun hn => ?_⟩
    obtain ⟨x, hseek, hm⟩ := hlive hn
    rw [pipe_eq moved.keeps (E.exists_of_watched hq)] at hseek
    obtain ⟨j, hj, hfinds⟩ := Cursor.finds_of_seeks hseek rfl
    injection hj with _ hj
    subst hj
    exact ⟨x, hfinds, hm⟩
  · obtain ⟨replies, s', hrun, hall, moved⟩ := placed.returns run hbudget
      (fun e he => ⟨(members e he).1, fresh.source_of_family (members e he).1⟩) fun e he => (members e he).2
    have hcounted : k = _ := moved.placed.stands.counted.2
    exact ⟨replies, s', hrun, hall, hcounted.symm⟩

end Runs

end Setting

/-! ## A family over a range -/

namespace Cursor

/-- The function `|x| x < 2`. -/
def belowTwo : Value := .function (.operating 0 ⟨0⟩ "x" .less (.integer 2) .start)

/-- The generator of `range(0, 4)`. -/
def toFour : Generator := .range (.integer 0) (.integer 4) (.integer 1) .start

/-- `range(0, 4)`, and what is below two of it. -/
def rangeSetting : Setting Datum where
  own id := id = ⟨0⟩
  reading := Datum.reading _
  stream _ j := (Datum.reading (· = ⟨0⟩)).rangeElement
    ((Number.integer 0).afterSteps (.integer 1) j) (.integer 4) (.integer 1) .start
  limit _ := 0
  call := Action.apply 1
  start := Store.withSources #[⟨toFour, 0, false⟩]
    #[⟨⟨0⟩, [], none, .start⟩, ⟨⟨0⟩, [.filter belowTwo], none, .start⟩]
  watched q := q = ⟨0⟩ ∨ q = ⟨1⟩
  exists_of_watched := by
    rintro q (rfl | rfl) <;> decide
  free_of_watched := by
    rintro q (rfl | rfl) t ht
    · cases ht
    · obtain rfl := List.mem_singleton.mp ht
      exact Datum.operating_effectFree (show Datum.IsPlain .less from trivial) (by decide) (by decide)

/-- The filtered sequence peeks, the range skips an element, the filtered one takes its last element
and is at its end: the cursor comes to the end of the range. -/
theorem range_refines_cursor :
    ∃ replies s', Request.Run rangeSetting.call 5 rangeSetting.start replies s' ∧
      List.Forall₂ (rangeSetting.ShowsTo s') replies
        [(.peek ⟨1⟩ .start, .ok (.element (.number (.integer 0)))), (.skip ⟨0⟩ 1, .ok .done),
          (.next ⟨1⟩ .start, .ok (.element (.number (.integer 1)))), (.atEnd ⟨1⟩, .ok (.truth true))] ∧
      (s'.source ⟨0⟩).advanced = 4 := by
  have created : Sequence.create toFour .start (Store.withSources #[] #[]) =
      .ok (.sequence ⟨0⟩) (Store.withSources #[⟨toFour, 0, false⟩] #[⟨⟨0⟩, [], none, .start⟩]) := rfl
  have derived : Sequence.derive ⟨0⟩ (.filter belowTwo)
      (Store.withSources #[⟨toFour, 0, false⟩] #[⟨⟨0⟩, [], none, .start⟩]) =
      .ok (.sequence ⟨1⟩) rangeSetting.start := rfl
  have fresh := (Store.fresh_of_create created).of_derive rfl derived
  have hat : rangeSetting.At rangeSetting.start (rangeSetting.stream ⟨0⟩) 0 toFour := .range fun _ => rfl
  have peeks : Finds rangeSetting.reading (rangeSetting.stream ⟨0⟩) (rangeSetting.pipe ⟨1⟩) 0
      (.ok (some (.number (.integer 0)))) 0 :=
    .element (Nat.le_refl 0) (by omega) rfl rfl (by nofun)
  have skips : Serves rangeSetting.reading (rangeSetting.stream ⟨0⟩) rangeSetting.pipe (.skip ⟨0⟩ 1) 0
      (.ok .done) 1 := by
    refine .skip (by omega) (fun i h h' => ?_) (.inl rfl)
    obtain rfl : i = 0 := by omega
    exact ⟨_, rfl⟩
  have takes : Finds rangeSetting.reading (rangeSetting.stream ⟨0⟩) (rangeSetting.pipe ⟨1⟩) 1
      (.ok (some (.number (.integer 1)))) 1 :=
    .element (Nat.le_refl 1) (by omega) rfl rfl (by nofun)
  have ends : Finds rangeSetting.reading (rangeSetting.stream ⟨0⟩) (rangeSetting.pipe ⟨1⟩) 2 (.ok none) 4 := by
    refine .stop (by omega) (fun i h h' => ?_) rfl isStop_none
    obtain rfl | rfl : i = 2 ∨ i = 3 := by omega
    · exact ⟨_, rfl, rfl⟩
    · exact ⟨_, rfl, rfl⟩
  refine (rangeSetting.family_refines_cursor fresh rfl hat 5).2
    (.cons (.peek peeks) (.cons skips (.cons (.next takes) (.cons (.atEnd ends) .nil))))
    (by decide) ?_
  simp [Request.sequence, rangeSetting]

end Cursor

end Abacus
