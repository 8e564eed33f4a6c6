import Abacus.Proofs.Run.Recordings

/-!
# Applications in order

A generator that calls a function calls it for each element once, and for one element after the other,
whoever asks for elements and in whatever way. Every sequence over its source shares what the
generator knows, so a look makes a call only if no look has made it before; and the next call is made
only when the element of the last one has been consumed. A call that fails leaves things as they are,
so it is made again.

**The law** (`Recorded.applications_in_order`): so it is in the record of every list of sources that
run one after the other.
-/

namespace Abacus

/-! ## Arguments -/

namespace Origin

variable {f seed argument : Value} {limit : Option Int} {position : Position} {consumed : List Value}

/-- The call by index is made with the number of elements that have been consumed, below the limit. -/
theorem argument?_index :
    (index f limit position).argument? consumed = some argument ↔
      (∀ n ∈ limit, (consumed.length : Int) < n) ∧ argument = .ofNat consumed.length := by
  have hlimit : limit.any (· ≤ (consumed.length : Int)) = false ↔
      ∀ n ∈ limit, (consumed.length : Int) < n := by
    cases limit <;> simp
  rw [argument?, ← hlimit]
  cases limit.any (· ≤ (consumed.length : Int)) with
  | true => simp
  | false => simp [eq_comm]

end Origin

namespace Entry

variable {id : SourceId} {entries : List Entry}

/-- Elements that a generator found by index are below the limit. -/
theorem Orderly.nth_index {f : Value} {limit : Option Int} {position : Position} (h : Orderly entries)
    (hbuilt : .built id (.index f limit position) ∈ entries) {i : Nat}
    (hi : i < (results id entries).length) :
    (∀ n ∈ limit, (i : Int) < n) ∧
      nth (.index f limit position) (results id entries) i = some (.ofNat i) := by
  -- the generator has been called with something
  have hmem := List.mem_map_of_mem (f := nth (.index f limit position) (results id entries))
    (List.mem_range.mpr hi)
  rw [← h.arguments_eq hbuilt] at hmem
  obtain ⟨argument, -, hargument⟩ := List.mem_map.mp hmem
  have hlength : ((results id entries).take i).length = i := List.length_take_of_le (Nat.le_of_lt hi)
  have hnth : nth (.index f limit position) (results id entries) i =
      (Origin.index f limit position).argument? ((results id entries).take i) := by
    rw [nth, Origin.seeds, List.nil_append, List.length_nil, Nat.zero_add]
  obtain ⟨hbelow, rfl⟩ := Origin.argument?_index.mp (hnth.symm.trans hargument.symm)
  rw [hlength] at hbelow hargument
  exact ⟨hbelow, hargument.symm⟩

/-- The calls by index that give an element are made with `0`, `1`, `2` and so on. -/
theorem Orderly.arguments_index {f : Value} {limit : Option Int} {position : Position}
    (h : Orderly entries) (hbuilt : .built id (.index f limit position) ∈ entries) :
    arguments id entries = (List.range (results id entries).length).map (.ofNat ·) := by
  refine (List.map_inj_right fun _ _ => Option.some.inj).mp ((h.arguments_eq hbuilt).trans ?_)
  rw [List.map_map]
  exact List.map_congr_left fun i hi => (h.nth_index hbuilt (List.mem_range.mp hi)).2

/-- The calls by the element before that give an element are made with the elements in order. -/
theorem Orderly.arguments_iterate {f seed : Value} {position : Position} (h : Orderly entries)
    (hbuilt : .built id (.iterate f seed position) ∈ entries) :
    arguments id entries = (seed :: results id entries).take (results id entries).length := by
  refine (List.map_inj_right fun _ _ => Option.some.inj).mp ((h.arguments_eq hbuilt).trans ?_)
  refine List.ext_getElem (by simp) fun i hi hi' => ?_
  rw [List.length_map, List.length_range] at hi
  have hlt : i < (seed :: results id entries).length := Nat.lt_succ_of_lt hi
  rw [List.getElem_map, List.getElem_range, List.getElem_map, List.getElem_take, nth, Origin.seeds,
    List.singleton_append, List.length_singleton, Nat.add_comm, Origin.argument?, List.getLast?_take,
    if_neg (Nat.succ_ne_zero i), Nat.add_sub_cancel, List.getElem?_eq_getElem hlt, Option.some_or]

/-- These calls are made with elements that have been consumed. -/
theorem Orderly.arguments_prefix {f seed : Value} {position : Position} (h : Orderly entries)
    (hbuilt : .built id (.iterate f seed position) ∈ entries) :
    arguments id entries <+: consumedOf id entries := by
  have hahead := h.ahead hbuilt
  have hprefix := h.consumed_prefix hbuilt
  rw [Origin.seeds, List.length_singleton] at hahead
  rw [Origin.seeds, List.singleton_append] at hprefix
  rw [h.arguments_iterate hbuilt]
  refine List.prefix_of_prefix_length_le (List.take_prefix _ _) hprefix ?_
  rw [List.length_take]
  omega

/-! ## Calls -/

/-- Every call, whether it gives an element or not, is made when all elements that are known have been
consumed, and with what comes next. -/
theorem Orderly.called {origin : Origin} {before after : List Entry} {g argument : Value}
    (h : Orderly entries) (hbuilt : .built id origin ∈ entries)
    (hentries : entries = before ++ .called id g argument :: after) :
    g = origin.function ∧ consumedOf id before = origin.seeds ++ results id before ∧
      origin.argument? (consumedOf id before) = some argument := by
  obtain ⟨origin', hbuilt', hg, hconsumed, hargument⟩ := (hentries ▸ h).lawful
  obtain rfl := h.origin_eq hbuilt (hentries ▸ List.mem_append_left _ hbuilt')
  exact ⟨hg, hconsumed, hargument⟩

/-- What the record tells of the calls of any generator. -/
structure Attempts (f : Value) (id : SourceId) (entries : List Entry) : Prop where
  /-- A call that ends is the last that was made, and a call of this function. -/
  ended : ∀ {before after : List Entry} {argument : Value} {result : Except Interruption Value},
    entries = before ++ .ended id argument result :: after →
      ∃ earlier later, before = earlier ++ .called id f argument :: later ∧ Silent id later
  /-- As long as no call has given an element, calls are made with the same argument. -/
  retried : ∀ {before between after : List Entry} {g g' argument argument' : Value},
    entries = before ++ .called id g argument :: (between ++ .called id g' argument' :: after) →
      results id between = [] → argument' = argument

theorem Orderly.attempts {origin : Origin} (h : Orderly entries)
    (hbuilt : .built id origin ∈ entries) : Attempts origin.function id entries where
  ended := by
    intro before after argument result hentries
    obtain ⟨g, earlier, later, hbefore, hsilent⟩ := (hentries ▸ h).lawful
    have hcall : entries =
        earlier ++ .called id g argument :: (later ++ .ended id argument result :: after) := by
      rw [hentries, hbefore, List.append_assoc, List.cons_append]
    obtain ⟨rfl, -, -⟩ := h.called hbuilt hcall
    exact ⟨earlier, later, hbefore, hsilent⟩
  retried := by
    intro before between after g g' argument argument' hentries hnone
    obtain ⟨-, hconsumed, hargument⟩ := h.called hbuilt hentries
    have hagain : entries =
        (before ++ .called id g argument :: between) ++ .called id g' argument' :: after := by
      rw [hentries, List.append_assoc, List.cons_append]
    obtain ⟨-, hconsumed', hargument'⟩ := h.called hbuilt hagain
    -- nothing was found in between, so nothing was consumed
    have hresults : results id (before ++ .called id g argument :: between) = results id before := by
      rw [results_append, show results id (.called id g argument :: between) = results id between from
        rfl, hnone, List.append_nil]
    rw [hconsumed', hresults, ← hconsumed, hargument] at hargument'
    exact (Option.some.inj hargument').symm

/-- What the record tells of a generator that calls by index. -/
structure ByIndex (f : Value) (limit : Option Int) (id : SourceId) (entries : List Entry) : Prop
    extends Attempts f id entries where
  /-- The calls that give an element are made with `0`, `1`, `2` and so on. -/
  arguments : arguments id entries = (List.range (results id entries).length).map (.ofNat ·)
  /-- None of them reaches the limit. -/
  below : ∀ i < (results id entries).length, ∀ n ∈ limit, (i : Int) < n
  /-- Elements are consumed in the order in which they are found. -/
  consumed : consumedOf id entries <+: results id entries
  /-- A call is made when all elements before have been consumed, and below the limit. -/
  called : ∀ {before after : List Entry} {g argument : Value},
    entries = before ++ .called id g argument :: after →
      g = f ∧ consumedOf id before = results id before ∧
        argument = .ofNat (results id before).length ∧
        ∀ n ∈ limit, ((results id before).length : Int) < n

theorem Orderly.byIndex {f : Value} {limit : Option Int} {position : Position} (h : Orderly entries)
    (hbuilt : .built id (.index f limit position) ∈ entries) : ByIndex f limit id entries where
  toAttempts := h.attempts hbuilt
  arguments := h.arguments_index hbuilt
  below i hi := (h.nth_index hbuilt hi).1
  consumed := h.consumed_prefix hbuilt
  called := by
    intro before after g argument hentries
    obtain ⟨rfl, hconsumed, hargument⟩ := h.called hbuilt hentries
    rw [Origin.seeds, List.nil_append] at hconsumed
    obtain ⟨hbelow, rfl⟩ := Origin.argument?_index.mp hargument
    rw [hconsumed] at hbelow ⊢
    exact ⟨rfl, rfl, rfl, hbelow⟩

/-- What the record tells of a generator that calls by the element before. -/
structure ByElement (f seed : Value) (id : SourceId) (entries : List Entry) : Prop
    extends Attempts f id entries where
  /-- The calls that give an element are made with the elements in order, each giving the next. -/
  arguments : arguments id entries = (seed :: results id entries).take (results id entries).length
  /-- These are elements that have been consumed. -/
  spent : Entry.arguments id entries <+: consumedOf id entries
  /-- Elements are consumed in the order in which they are found. -/
  consumed : consumedOf id entries <+: seed :: results id entries
  /-- A call is made when all elements before have been consumed, and with the last of them. -/
  called : ∀ {before after : List Entry} {g argument : Value},
    entries = before ++ .called id g argument :: after →
      g = f ∧ consumedOf id before = seed :: results id before ∧
        (consumedOf id before).getLast? = some argument

theorem Orderly.byElement {f seed : Value} {position : Position} (h : Orderly entries)
    (hbuilt : .built id (.iterate f seed position) ∈ entries) : ByElement f seed id entries where
  toAttempts := h.attempts hbuilt
  arguments := h.arguments_iterate hbuilt
  spent := h.arguments_prefix hbuilt
  consumed := h.consumed_prefix hbuilt
  called hentries := h.called hbuilt hentries

end Entry

/-! ## Runs -/

namespace Recorded

open Entry
open Store (initial outermost)

/-- **Every generator calls its function for one element after the other.** What generators have become
in the store can be told from the record. -/
theorem applications_in_order (sources : List String) :
    (afterSources false initial.2 outermost sources).store = initial.2.afterSources outermost sources ∧
    let r := afterSources false initial.2 outermost sources
    (∀ id, (r.store.source id).generator.applies = true →
      Accounts r.entries id (r.store.source id).generator) ∧
    (∀ (id : SourceId) (f : Value) (limit : Option Int) (position : Position),
      .built id (.index f limit position) ∈ r.entries → ByIndex f limit id r.entries) ∧
    ∀ (id : SourceId) (f seed : Value) (position : Position),
      .built id (.iterate f seed position) ∈ r.entries → ByElement f seed id r.entries := by
  have h := faithful_afterSources false sources
  exact ⟨h.mirrors.eq.symm, h.fine.accounts, fun id f limit position => h.fine.orderly.byIndex,
    fun id f seed position => h.fine.orderly.byElement⟩

/-- A generator whose elements are looked at through two sequences, and one that calls by the element
before. -/
theorem applications_of_two :
    let r := afterSources false initial.2 outermost
      ["s = seq(|i| i * i, 4); t = map(s, |v| v + 1); peek(s); peek(t); next(t); peek(s)",
        "u = iterate(2, |v| v * v); next(u); next(u); next(u)"]
    (∃ (f : Value) (limit : Option Int), ByIndex f limit ⟨0⟩ r.entries) ∧
    arguments ⟨0⟩ r.entries = [.ofNat 0, .ofNat 1] ∧
    ∃ f seed : Value, ByElement f seed ⟨1⟩ r.entries := by
  intro r
  obtain ⟨-, haccounts, hindex, helement⟩ := applications_in_order
    ["s = seq(|i| i * i, 4); t = map(s, |v| v + 1); peek(s); peek(t); next(t); peek(s)",
      "u = iterate(2, |v| v * v); next(u); next(u); next(u)"]
  have happlies : (r.store.source ⟨0⟩).generator.applies = true ∧
      (r.store.source ⟨1⟩).generator.applies = true := by decide +kernel
  have hlengths : (results ⟨0⟩ r.entries).length = 2 ∧ (consumedOf ⟨0⟩ r.entries).length = 1 ∧
      (results ⟨1⟩ r.entries).length = 2 ∧ (consumedOf ⟨1⟩ r.entries).length = 3 := by decide +kernel
  obtain ⟨origin, known, hbuilt, -, hknown⟩ := haccounts ⟨0⟩ happlies.1
  obtain ⟨origin', known', hbuilt', -, hknown'⟩ := haccounts ⟨1⟩ happlies.2
  -- how many elements are known tells how each of them is built
  have hseeds := congrArg List.length hknown
  have hseeds' := congrArg List.length hknown'
  rw [List.length_append, List.length_append, hlengths.1, hlengths.2.1] at hseeds
  rw [List.length_append, List.length_append, hlengths.2.2.1, hlengths.2.2.2] at hseeds'
  cases origin with
  | iterate f seed position =>
    have hle : known.toList.length ≤ 1 := by cases known <;> simp
    simp only [Origin.seeds, List.length_singleton] at hseeds
    omega
  | index f limit position =>
    cases origin' with
    | index f' limit' position' =>
      simp only [Origin.seeds, List.length_nil] at hseeds'
      omega
    | iterate f' seed position' =>
      have hby := hindex ⟨0⟩ f limit position hbuilt
      refine ⟨⟨f, limit, hby⟩, ?_, f', seed, helement ⟨1⟩ f' seed position' hbuilt'⟩
      rw [hby.arguments, hlengths.1]
      rfl

end Recorded

end Abacus
