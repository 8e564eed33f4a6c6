import Abacus.Proofs.Run.Record

/-!
# Orderly records

A record is orderly if each entry is as it has to be after the entries before it: a generator calls
its function only when all elements that are known have been consumed, and with what comes next; a
call that ends is the last that was made; what is consumed is the next of the elements that are known;
and a sequence over a generator whose function is running has been refused.

**The laws**: in an orderly record every entry is lawful where it stands (`Orderly.lawful`), and what
it tells of a generator comes about by elements that are found and consumed (`Orderly.told`). From
that follow the arguments of all calls that gave an element, in order (`Orderly.arguments_eq`), that
consuming keeps to the order of the elements (`Orderly.consumed_prefix`), and that a generator is at
most one element ahead (`Orderly.ahead`).
-/

namespace Abacus

namespace Entry

/-- The elements that a generator got from its function. -/
def results (id : SourceId) (entries : List Entry) : List Value :=
  entries.filterMap fun
    | .ended other _ (.ok value) => if other = id then some value else none
    | _ => none

/-- The elements of a generator that have been consumed. -/
def consumedOf (id : SourceId) (entries : List Entry) : List Value :=
  entries.filterMap fun
    | .consumed other value => if other = id then some value else none
    | _ => none

/-- The arguments of the calls that gave an element. -/
def arguments (id : SourceId) (entries : List Entry) : List Value :=
  entries.filterMap fun
    | .ended other argument (.ok _) => if other = id then some argument else none
    | _ => none

variable {id : SourceId} {entries new : List Entry}

@[simp] theorem results_append (entries new : List Entry) :
    results id (entries ++ new) = results id entries ++ results id new := List.filterMap_append

@[simp] theorem consumedOf_append (entries new : List Entry) :
    consumedOf id (entries ++ new) = consumedOf id entries ++ consumedOf id new :=
  List.filterMap_append

@[simp] theorem arguments_append (entries new : List Entry) :
    arguments id (entries ++ new) = arguments id entries ++ arguments id new :=
  List.filterMap_append

/-- Nothing that is noted is about a source. -/
def Silent (id : SourceId) (entries : List Entry) : Prop := ∀ e ∈ entries, e.about? ≠ some id

theorem Silent.nil : Silent id [] := fun _ h => nomatch h

theorem Silent.append (h : Silent id entries) (h' : Silent id new) : Silent id (entries ++ new) :=
  fun e he => (List.mem_append.mp he).elim (h e) (h' e)

theorem silent_singleton {e : Entry} (h : e.about? ≠ some id) : Silent id [e] := by
  simpa [Silent] using h

theorem Silent.results_eq (h : Silent id entries) : results id entries = [] := by
  refine List.filterMap_eq_nil_iff.mpr fun e he => ?_
  have habout := h e he
  cases e with
  | ended other argument result =>
    cases result with
    | ok value => exact if_neg fun heq => habout (congrArg some heq)
    | error e => rfl
  | _ => rfl

theorem Silent.consumedOf_eq (h : Silent id entries) : consumedOf id entries = [] := by
  refine List.filterMap_eq_nil_iff.mpr fun e he => ?_
  have habout := h e he
  cases e with
  | consumed other element => exact if_neg fun heq => habout (congrArg some heq)
  | _ => rfl

theorem Silent.arguments_eq (h : Silent id entries) : arguments id entries = [] := by
  refine List.filterMap_eq_nil_iff.mpr fun e he => ?_
  have habout := h e he
  cases e with
  | ended other argument result =>
    cases result with
    | ok value => exact if_neg fun heq => habout (congrArg some heq)
    | error e => rfl
  | _ => rfl

/-! ## Order -/

/-- An entry is as it has to be after what has been noted before. -/
def Lawful (before : List Entry) : Entry → Prop
  | .built id _ => Silent id before
  | .called id f argument => ∃ origin, .built id origin ∈ before ∧ f = origin.function ∧
    consumedOf id before = origin.seeds ++ results id before ∧
    origin.argument? (consumedOf id before) = some argument
  | .ended id argument _ => ∃ f earlier later,
    before = earlier ++ .called id f argument :: later ∧ Silent id later
  | .consumed id element => ∃ origin, .built id origin ∈ before ∧
    consumedOf id before ++ [element] <+: origin.seeds ++ results id before
  | .reentered position source source' answer =>
    answer = .error (.fault ⟨.reentrantSequence, position⟩) ∧ source' = source
  | .strayed => False

/-- Every entry is lawful where it stands. -/
inductive Orderly : List Entry → Prop
  | nil : Orderly []
  | snoc {entries : List Entry} {e : Entry} : Orderly entries → Lawful entries e →
    Orderly (entries ++ [e])

/-- **In an orderly record every entry is lawful where it stands.** -/
theorem Orderly.lawful {before after : List Entry} {e : Entry}
    (h : Orderly (before ++ e :: after)) : Lawful before e := by
  generalize hentries : before ++ e :: after = entries at h
  induction h generalizing after with
  | nil => simp at hentries
  | @snoc entries last _ hlast ih =>
    rcases List.eq_nil_or_concat after with rfl | ⟨rest, e', rfl⟩
    · obtain ⟨rfl, hsame⟩ := List.append_inj' hentries rfl
      cases hsame
      exact hlast
    · have hsplit : (before ++ e :: rest) ++ [e'] = entries ++ [last] := by simpa using hentries
      exact ih (List.append_inj' hsplit rfl).1

theorem Orderly.not_strayed (h : Orderly entries) : .strayed ∉ entries := by
  intro hmem
  obtain ⟨before, after, rfl⟩ := List.append_of_mem hmem
  exact h.lawful

/-- A source is built once. -/
theorem Orderly.origin_eq {origin origin' : Origin} (h : Orderly entries)
    (hbuilt : .built id origin ∈ entries) (hbuilt' : .built id origin' ∈ entries) :
    origin = origin' := by
  induction h with
  | nil => cases hbuilt
  | @snoc entries last _ hlast ih =>
    rcases List.mem_append.mp hbuilt with hb | hb <;> rcases List.mem_append.mp hbuilt' with hb' | hb'
    · exact ih hb hb'
    · obtain rfl := List.mem_singleton.mp hb'
      exact absurd rfl (hlast _ hb)
    · obtain rfl := List.mem_singleton.mp hb
      exact absurd rfl (hlast _ hb')
    · cases (List.mem_singleton.mp hb).trans (List.mem_singleton.mp hb').symm
      rfl

/-- A call that ends was made when all that was known had been consumed, and with what came next. -/
theorem Orderly.made {argument : Value} {result : Except Interruption Value} (h : Orderly entries)
    (hended : Lawful entries (.ended id argument result)) :
    ∃ origin, .built id origin ∈ entries ∧ consumedOf id entries = origin.seeds ++ results id entries ∧
      origin.argument? (consumedOf id entries) = some argument := by
  obtain ⟨f, earlier, later, rfl, hsilent⟩ := hended
  obtain ⟨origin, hbuilt, -, hconsumed, hargument⟩ := h.lawful
  have hsame : consumedOf id (earlier ++ .called id f argument :: later) = consumedOf id earlier := by
    rw [consumedOf_append, show consumedOf id (.called id f argument :: later) = consumedOf id later from
      rfl, hsilent.consumedOf_eq, List.append_nil]
  have hresults : results id (earlier ++ .called id f argument :: later) = results id earlier := by
    rw [results_append, show results id (.called id f argument :: later) = results id later from rfl,
      hsilent.results_eq, List.append_nil]
  exact ⟨origin, List.mem_append_left _ hbuilt, by rw [hsame, hresults, hconsumed],
    by rw [hsame, hargument]⟩

/-- **What a record tells of a generator comes about by elements that are found and consumed**: one is
found by a call that is made when all before it have been consumed, and one is consumed when it is
the next of those that are known. -/
theorem Orderly.told {origin : Origin} {motive : List Value → List Value → List Value → Prop}
    (h : Orderly entries) (hbuilt : .built id origin ∈ entries) (nothing : motive [] [] [])
    (found : ∀ {results consumed arguments : List Value} {argument : Value} (v : Value),
      motive results consumed arguments → consumed = origin.seeds ++ results →
      origin.argument? consumed = some argument →
      motive (results ++ [v]) consumed (arguments ++ [argument]))
    (consume : ∀ {results consumed arguments : List Value} {v : Value},
      motive results consumed arguments → consumed ++ [v] <+: origin.seeds ++ results →
      motive results (consumed ++ [v]) arguments) :
    motive (results id entries) (consumedOf id entries) (arguments id entries) := by
  induction h with
  | nil => cases hbuilt
  | @snoc entries last horderly hlast ih =>
    rw [results_append, consumedOf_append, arguments_append]
    by_cases habout : last.about? = some id
    · cases last with
      | built other origin' =>
        cases habout
        rw [Silent.results_eq hlast, Silent.consumedOf_eq hlast, Silent.arguments_eq hlast]
        exact nothing
      | called other f argument =>
        cases habout
        simpa [results, consumedOf, arguments] using ih (by simpa using hbuilt)
      | ended other argument result =>
        cases habout
        have hbefore : .built id origin ∈ entries := by simpa using hbuilt
        cases result with
        | error e => simpa [results, consumedOf, arguments] using ih hbefore
        | ok v =>
          obtain ⟨origin', hbuilt', hconsumed, hargument⟩ := horderly.made hlast
          obtain rfl := horderly.origin_eq hbefore hbuilt'
          simpa [results, consumedOf, arguments] using found v (ih hbefore) hconsumed hargument
      | consumed other element =>
        cases habout
        have hbefore : .built id origin ∈ entries := by simpa using hbuilt
        obtain ⟨origin', hbuilt', hprefix⟩ := hlast
        obtain rfl := horderly.origin_eq hbefore hbuilt'
        simpa [results, consumedOf, arguments] using consume (ih hbefore) hprefix
      | reentered => cases habout
      | strayed => cases habout
    · have hsilent := silent_singleton habout
      rw [hsilent.results_eq, hsilent.consumedOf_eq, hsilent.arguments_eq, List.append_nil,
        List.append_nil, List.append_nil]
      refine ih ?_
      rcases List.mem_append.mp hbuilt with hb | hb
      · exact hb
      · obtain rfl := List.mem_singleton.mp hb
        exact absurd rfl habout

/-- What has been consumed is a part from the beginning of what is known. -/
theorem Orderly.consumed_prefix {origin : Origin} (h : Orderly entries)
    (hbuilt : .built id origin ∈ entries) :
    consumedOf id entries <+: origin.seeds ++ results id entries := by
  refine h.told (motive := fun results consumed _ => consumed <+: origin.seeds ++ results) hbuilt
    List.nil_prefix ?_ ?_
  · intro results consumed arguments argument v ih _ _
    rw [← List.append_assoc]
    exact ih.trans (List.prefix_append _ _)
  · intro results consumed arguments v _ hprefix
    exact hprefix

/-- A generator is at most one element ahead of what has been consumed. -/
theorem Orderly.ahead {origin : Origin} (h : Orderly entries)
    (hbuilt : .built id origin ∈ entries) :
    origin.seeds.length + (results id entries).length ≤ (consumedOf id entries).length + 1 := by
  refine h.told (motive := fun results consumed _ =>
    origin.seeds.length + results.length ≤ consumed.length + 1) hbuilt ?_ ?_ ?_
  · cases origin <;> simp [Origin.seeds]
  · intro results consumed arguments argument v _ hconsumed _
    rw [hconsumed, List.length_append, List.length_append, List.length_singleton]
    omega
  · intro results consumed arguments v ih _
    rw [List.length_append]
    omega

/-- What a generator is to be called with after so many calls that gave an element. -/
def nth (origin : Origin) (known : List Value) (i : Nat) : Option Value :=
  origin.argument? ((origin.seeds ++ known).take (origin.seeds.length + i))

/-- What is found later does not change what a generator was to be called with before. -/
theorem nth_append (origin : Origin) (known new : List Value) {i : Nat} (h : i ≤ known.length) :
    nth origin (known ++ new) i = nth origin known i := by
  have hle : origin.seeds.length + i ≤ (origin.seeds ++ known).length := by
    rw [List.length_append]
    exact Nat.add_le_add_left h _
  rw [nth, nth, ← List.append_assoc, List.take_append_of_le_length hle]

/-- **The calls that give an element are made with one argument after the other.** -/
theorem Orderly.arguments_eq {origin : Origin} (h : Orderly entries)
    (hbuilt : .built id origin ∈ entries) :
    (arguments id entries).map some =
      (List.range (results id entries).length).map (nth origin (results id entries)) := by
  refine h.told (motive := fun results _ arguments => arguments.map some =
    (List.range results.length).map (nth origin results)) hbuilt rfl ?_ ?_
  · intro results consumed arguments argument v ih hconsumed hargument
    rw [List.map_append, ih, List.length_append, List.length_singleton, List.range_succ,
      List.map_append]
    congr 1
    · refine List.map_congr_left fun i hi => (nth_append origin _ _ ?_).symm
      exact Nat.le_of_lt (List.mem_range.mp hi)
    · rw [List.map_singleton, List.map_singleton, nth_append origin _ _ (Nat.le_refl _), nth,
        ← List.length_append, List.take_length, ← hconsumed, hargument]
  · intro results consumed arguments v ih _
    exact ih

end Entry

end Abacus
