import Abacus.Proofs.Number.Comparison
import Abacus.Proofs.Store.Sharing
import Abacus.Run.Natives

/-!
# The least and the greatest argument

One argument after the other is compared with the best one so far, and takes its place if it is
better. Comparison with complex numbers fails; the first argument, though, is not compared with
anything, so alone it is the result even if it is complex. Being better is transitive whatever kinds
of reals there are in between, so what an earlier one was not worse than, a later one is not worse
than either.

**The law** (`Native.extrema_exact`): of reals and integers the result is one argument, unchanged, and
no argument is better; with a complex number among two or more, comparison fails.
-/

namespace Abacus

/-- The least and the greatest, each with how a better number compares. -/
inductive Native.Selects : Native → Ordering → Prop
  | least : Selects .min .lt
  | greatest : Selects .max .gt

namespace Number

variable {a b c n : Number} {direction : Ordering}

/-- Integers and reals that are numbers have an order. -/
theorem ordered_of_defined (h : n.Defined) (hkind : n.kind ≠ .complex) : Ordered n := by
  cases n with
  | integer m => trivial
  | real x => exact h
  | complex z => exact absurd rfl hkind

/-- A complex number has none, to whatever it is compared. -/
theorem compare_complex (h : a.kind = .complex ∨ b.kind = .complex) :
    compare a b = .error (.undefinedOnComplex .ordering) := by
  cases a <;> cases b <;> first | rfl | (obtain h | h := h <;> cases h)

/-- Being better is transitive. -/
theorem better_trans (hdirection : direction ≠ .eq) (hab : order a b = direction)
    (hbc : order b c = direction) : order a c = direction := by
  cases direction with
  | eq => exact absurd rfl hdirection
  | lt => exact order_lt_trans hab hbc
  | gt =>
    have hba : order b a = .lt := by rw [order_swap a b, hab]; rfl
    have hcb : order c b = .lt := by rw [order_swap b c, hbc]; rfl
    rw [order_swap c a, order_lt_trans hcb hba]
    rfl

/-- Nothing is better than itself. -/
theorem not_better_self (hdirection : direction ≠ .eq) (a : Number) : order a a ≠ direction :=
  fun h => hdirection (h.symm.trans (order_self a))

end Number

namespace Native

open Number

variable {native : Native} {owner : String} {direction : Ordering} {position : Position} {best n : Number}
  {rest : List Number} {s : Store}

/-- A number that is in the order wanted replaces the best one so far. -/
theorem extremum_next (hn : Ordered n) (hbest : Ordered best) (values : List Value) :
    extremum owner direction position best (.number n :: values) s =
      extremum owner direction position (if order n best = direction then n else best) values s := by
  rw [extremum, expectNumber, Action.bind_pure, compare_eq_order hn hbest, Action.ofNumeric,
    Action.bind_pure]
  simp only [Option.some_beq_some, beq_iff_eq]

/-- A complex number ends the search. -/
theorem extremum_complex (h : n.kind = .complex ∨ best.kind = .complex) (values : List Value) :
    extremum owner direction position best (.number n :: values) s =
      .error (.fault ⟨.number (.undefinedOnComplex .ordering), position⟩) s := by
  rw [extremum, expectNumber, Action.bind_pure, compare_complex h, Action.ofNumeric,
    Action.fail_bind]

/-- The result is the number to begin with or better, and no number is better than the result. -/
theorem extremum_best (hdirection : direction ≠ .eq) (hbest : Ordered best)
    (hrest : ∀ n ∈ rest, Ordered n) :
    ∃ m, extremum owner direction position best (rest.map .number) s = .ok m s ∧
      m ∈ best :: rest ∧ (m = best ∨ order m best = direction) ∧
      ∀ n ∈ best :: rest, order n m ≠ direction := by
  induction rest generalizing best with
  | nil =>
    refine ⟨best, rfl, List.mem_cons_self, .inl rfl, ?_⟩
    exact List.forall_mem_singleton.mpr (not_better_self hdirection best)
  | cons n rest ih =>
    obtain ⟨hn, hrest⟩ := List.forall_mem_cons.mp hrest
    rw [List.map_cons, extremum_next hn hbest]
    -- Of `n` and `best` one goes on; by transitivity the other one is not better than the result.
    by_cases hbetter : order n best = direction
    · obtain ⟨m, hrun, hmem, hm, hall⟩ := ih hn hrest
      have hmbest : order m best = direction := by
        obtain rfl | hm := hm
        · exact hbetter
        · exact better_trans hdirection hm hbetter
      rw [if_pos hbetter]
      refine ⟨m, hrun, List.mem_cons_of_mem best hmem, .inr hmbest,
        List.forall_mem_cons.mpr ⟨fun h => ?_, hall⟩⟩
      exact not_better_self hdirection best (better_trans hdirection h hmbest)
    · obtain ⟨m, hrun, hmem, hm, hall⟩ := ih hbest hrest
      obtain ⟨hfirst, hothers⟩ := List.forall_mem_cons.mp hall
      have hworse : order n m ≠ direction := fun h => hbetter <| by
        obtain rfl | hm := hm
        · exact h
        · exact better_trans hdirection h hm
      rw [if_neg hbetter]
      refine ⟨m, hrun, ?_, hm, List.forall_mem_cons.mpr
        ⟨hfirst, List.forall_mem_cons.mpr ⟨hworse, hothers⟩⟩⟩
      exact (List.mem_cons.mp hmem).elim (· ▸ List.mem_cons_self)
        fun h => List.mem_cons_of_mem best (List.mem_cons_of_mem n h)

/-- A complex number is met at the latest when the next one is compared with it. -/
theorem extremum_fails (hdefined : ∀ n ∈ best :: rest, n.Defined) (hrest : rest ≠ [])
    (h : ∃ n ∈ best :: rest, n.kind = .complex) :
    extremum owner direction position best (rest.map .number) s =
      .error (.fault ⟨.number (.undefinedOnComplex .ordering), position⟩) s := by
  induction rest generalizing best with
  | nil => exact absurd rfl hrest
  | cons n rest ih =>
    rw [List.map_cons]
    by_cases hcomplex : n.kind = .complex ∨ best.kind = .complex
    · exact extremum_complex hcomplex _
    obtain ⟨hn, hbest⟩ := not_or.mp hcomplex
    obtain ⟨hbestDefined, hdefined⟩ := List.forall_mem_cons.mp hdefined
    obtain ⟨hnDefined, hrestDefined⟩ := List.forall_mem_cons.mp hdefined
    rw [extremum_next (ordered_of_defined hnDefined hn) (ordered_of_defined hbestDefined hbest)]
    obtain ⟨m, hm, hkind⟩ := h
    have hlater : m ∈ rest := by
      obtain rfl | hm := List.mem_cons.mp hm
      · exact absurd hkind hbest
      · exact (List.mem_cons.mp hm).resolve_left fun e => hn (e ▸ hkind)
    refine ih ?_ (List.ne_nil_of_mem hlater) ⟨m, List.mem_cons_of_mem _ hlater, hkind⟩
    refine List.forall_mem_cons.mpr ⟨?_, hrestDefined⟩
    split
    · exact hnDefined
    · exact hbestDefined

/-- Neither function looks for equality. -/
theorem Selects.ne_eq (h : native.Selects direction) : direction ≠ .eq := by
  cases h <;> decide

section Arguments

variable (h : native.Selects direction) (machine : Machine)

include h

/-- The first of the arguments is the one to begin with. -/
theorem Selects.run_cons (n : Number) (values : List Value) :
    ∃ owner, run machine position native (.number n :: values) =
      (do return .number (← extremum owner direction position n values)) := by
  cases h with
  | least => exact ⟨"min", rfl⟩
  | greatest => exact ⟨"max", rfl⟩

/-- A single argument is given back unchecked. -/
theorem Selects.run_single (n : Number) :
    run machine position native [.number n] s = .ok (.number n) s := by
  obtain ⟨owner, hrun⟩ := h.run_cons machine n []
  rw [hrun]
  rfl

/-- Of numbers with an order one is given, and no other is beyond it. -/
theorem Selects.run_ordered (hordered : ∀ m ∈ n :: rest, Ordered m) : ∃ best ∈ n :: rest,
    run machine position native ((n :: rest).map .number) s = .ok (.number best) s ∧
    ∀ m ∈ n :: rest, m.compare best ≠ .ok (some direction) := by
  obtain ⟨owner, hrun⟩ := h.run_cons machine n (rest.map .number)
  obtain ⟨hn, hrest⟩ := List.forall_mem_cons.mp hordered
  obtain ⟨best, hextremum, hmem, -, hall⟩ := extremum_best h.ne_eq hn hrest
  refine ⟨best, hmem, ?_, fun m hm hcompare => hall m hm ?_⟩
  · rw [List.map_cons, hrun, Action.bind_ok hextremum]
    rfl
  · rw [compare_eq_order (hordered m hm) (hordered best hmem)] at hcompare
    injection hcompare with hcompare
    injection hcompare

/-- A complex number among two or more arguments is refused. -/
theorem Selects.run_complex (hdefined : ∀ m ∈ n :: rest, m.Defined) (hrest : rest ≠ [])
    (hcomplex : ∃ m ∈ n :: rest, m.kind = .complex) :
    run machine position native ((n :: rest).map .number) s =
      .error (.fault ⟨.number (.undefinedOnComplex .ordering), position⟩) s := by
  obtain ⟨owner, hrun⟩ := h.run_cons machine n (rest.map .number)
  rw [List.map_cons, hrun]
  exact Action.bind_error (extremum_fails hdefined hrest hcomplex) _

end Arguments

/-- **`min` and `max` are exact.** They are called with any numbers of which no part is no number.
They fail, because comparison is not defined, if and only if there are two arguments or more and one
of them is complex. Otherwise the result is one of the arguments, and none compares below that of
`min` or above that of `max`. -/
theorem extrema_exact (machine : Machine) (position : Position) {native : Native}
    {direction : Ordering} (hnative : native.Selects direction) {arguments : List Number}
    (hsome : arguments ≠ []) (hdefined : ∀ n ∈ arguments, n.Defined) (s : Store) :
    ((∃ e t, run machine position native (arguments.map .number) s = .error (.fault e) t ∧
      e.fault.kind = .unsupportedOperation) ↔
        2 ≤ arguments.length ∧ ∃ n ∈ arguments, n.kind = .complex) ∧
    (2 ≤ arguments.length → (∃ n ∈ arguments, n.kind = .complex) →
      run machine position native (arguments.map .number) s =
        .error (.fault ⟨.number (.undefinedOnComplex .ordering), position⟩) s) ∧
    (arguments.length = 1 ∨ (∀ n ∈ arguments, n.kind ≠ .complex) → ∃ best ∈ arguments,
      run machine position native (arguments.map .number) s = .ok (.number best) s ∧
      ∀ n ∈ arguments, n.compare best ≠ .ok (some direction)) := by
  obtain ⟨n, rest, rfl⟩ := List.exists_cons_of_ne_nil hsome
  have hfails (htwo : 2 ≤ (n :: rest).length) (h : ∃ m ∈ n :: rest, m.kind = .complex) :
      run machine position native ((n :: rest).map .number) s =
        .error (.fault ⟨.number (.undefinedOnComplex .ordering), position⟩) s :=
    hnative.run_complex machine hdefined
      (List.ne_nil_of_length_pos (Nat.le_of_succ_le_succ htwo)) h
  have hselects (h : (n :: rest).length = 1 ∨ ∀ m ∈ n :: rest, m.kind ≠ .complex) :
      ∃ best ∈ n :: rest,
        run machine position native ((n :: rest).map .number) s = .ok (.number best) s ∧
        ∀ m ∈ n :: rest, m.compare best ≠ .ok (some direction) := by
    by_cases hkinds : ∀ m ∈ n :: rest, m.kind ≠ .complex
    · exact hnative.run_ordered machine fun m hm => ordered_of_defined (hdefined m hm) (hkinds m hm)
    obtain rfl : rest = [] := List.length_eq_zero_iff.mp (Nat.succ.inj (h.resolve_right hkinds))
    have hcomplex : n.kind = .complex := by
      by_contra hkind
      exact hkinds (List.forall_mem_singleton.mpr hkind)
    refine ⟨n, List.mem_singleton_self n, hnative.run_single machine n,
      List.forall_mem_singleton.mpr ?_⟩
    rw [compare_complex (.inl hcomplex)]
    exact nofun
  refine ⟨⟨fun ⟨e, t, herror, _⟩ => ?_, fun ⟨htwo, h⟩ => ⟨_, s, hfails htwo h, rfl⟩⟩, hfails, hselects⟩
  by_contra hnone
  have hother : (n :: rest).length = 1 ∨ ∀ m ∈ n :: rest, m.kind ≠ .complex := by
    by_cases htwo : 2 ≤ (n :: rest).length
    · exact .inr fun m hm hkind => hnone ⟨htwo, m, hm, hkind⟩
    · exact .inl (Nat.le_antisymm (Nat.le_of_lt_succ (Nat.not_le.mp htwo)) (Nat.succ_pos _))
  obtain ⟨best, -, hok, -⟩ := hselects hother
  cases herror.symm.trans hok

/-- The lesser of a real and an integer is the integer, as it is. -/
theorem extrema_exact_mixed :
    let machine : Machine := ⟨Action.apply 0, .ofDepth (Action.apply 0) 0, 0⟩
    let arguments : List Number := [.real 2.0, .integer 1]
    Selects .min .lt ∧ arguments ≠ [] ∧ (∀ n ∈ arguments, n.Defined) ∧
      (∀ n ∈ arguments, n.kind ≠ .complex) ∧
      run machine .start .min (arguments.map .number) .empty = .ok (.number (.integer 1)) .empty := by
  intro machine arguments
  have hsome : arguments ≠ [] := nofun
  have hdefined : ∀ n ∈ arguments, n.Defined := by decide +kernel
  have hkinds : ∀ n ∈ arguments, n.kind ≠ .complex := by decide +kernel
  have hlower : (Number.integer 1).compare (.real 2.0) = .ok (some .lt) := by rfl
  obtain ⟨-, -, hselects⟩ := extrema_exact machine .start .least hsome hdefined .empty
  obtain ⟨best, hmem, hrun, hall⟩ := hselects (.inr hkinds)
  obtain rfl | hmem := List.mem_cons.mp hmem
  · exact absurd hlower (hall (.integer 1) (by decide))
  · obtain rfl := List.mem_singleton.mp hmem
    exact ⟨.least, hsome, hdefined, hkinds, hrun⟩

/-- A complex number alone is compared with nothing, and is not refused. -/
theorem complex_alone_selected :
    let machine : Machine := ⟨Action.apply 0, .ofDepth (Action.apply 0) 0, 0⟩
    let arguments : List Number := [.complex .unit]
    arguments ≠ [] ∧ (∀ n ∈ arguments, n.Defined) ∧ (∃ n ∈ arguments, n.kind = .complex) ∧
      ¬ ∃ e t, run machine .start .min (arguments.map .number) .empty = .error (.fault e) t := by
  intro machine arguments
  refine ⟨nofun, by decide +kernel, ⟨_, List.mem_cons_self, rfl⟩, ?_⟩
  rintro ⟨e, t, h⟩
  cases (Selects.least.run_single machine (.complex .unit)).symm.trans h

end Native

end Abacus
