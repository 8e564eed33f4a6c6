import Abacus.Proofs.Discipline.Programs
import Abacus.Report

/-!
# Where errors are shown

An error of a source stands at a place of that source, however it came about: the positions that
fault in a running program come from the tokens of the source, over the bodies of functions and the
sequences that lie in the store. So its label falls between characters.

In a session a function of an earlier text may fault while a later one runs. Its position is a place
of the earlier text, and the label is cut from the later one.

**The laws.** The error of a source alone stands in it (`SourceError.position_real`). In a session it
stands in one of the texts, and it has a label in the last one exactly if its offset is between
characters there or beyond the end (`SourceError.label_in_session`).
-/

namespace Abacus

/-! ## Labels -/

/-- The offset is between two characters of the text, or at one of its ends. -/
def IsBoundary (text : List Char) (offset : Nat) : Prop :=
  ∃ front back, text = front ++ back ∧ offset = byteLength front

/-- A place between characters is in the text or at its end. -/
theorem IsBoundary.le {text : List Char} {offset : Nat} (h : IsBoundary text offset) :
    offset ≤ byteLength text := by
  obtain ⟨front, back, rfl, rfl⟩ := h
  rw [byteLength_append]
  exact Nat.le_add_right _ _

/-- The end is such a place. -/
theorem isBoundary_byteLength (text : List Char) : IsBoundary text (byteLength text) :=
  ⟨text, [], (List.append_nil text).symm, rfl⟩

/-- In a text of one-byte characters every offset is a boundary. -/
theorem isBoundary_of_utf8Size {text : List Char} (h : ∀ c ∈ text, c.utf8Size = 1) {offset : Nat}
    (hle : offset ≤ byteLength text) : IsBoundary text offset := by
  induction text generalizing offset with
  | nil => exact ⟨[], [], rfl, Nat.le_zero.mp hle⟩
  | cons c rest ih =>
    cases offset with
    | zero => exact ⟨[], c :: rest, rfl, rfl⟩
    | succ offset =>
      have hc := h c List.mem_cons_self
      rw [byteLength_cons, hc] at hle
      obtain ⟨front, back, rfl, hfront⟩ := ih (fun d hd => h d (List.mem_cons_of_mem _ hd))
        (by omega : offset ≤ byteLength rest)
      refine ⟨c :: front, back, rfl, ?_⟩
      rw [byteLength_cons, hc, hfront, Nat.add_comm]

namespace Report

/-- The two ends of the range are boundaries of the text. -/
structure Aligned (text : List Char) (range : Nat × Nat) : Prop where
  start : IsBoundary text range.1
  stop : IsBoundary text range.2
  le : range.1 ≤ range.2

/-- The character at a boundary is marked. -/
theorem labelRange?_go (start : Nat) (front back : List Char) :
    labelRange?.go start (byteLength front) (front ++ back) =
      some (start, start + byteLength back.head?.toList) := by
  induction front with
  | nil => cases back <;> simp [labelRange?.go]
  | cons c front ih =>
    have hsize := c.utf8Size_pos
    have hne : ¬ c.utf8Size + byteLength front = 0 := by omega
    have hlt : ¬ c.utf8Size + byteLength front < c.utf8Size := by omega
    rw [List.cons_append, labelRange?.go, byteLength_cons, if_neg hne, if_neg hlt,
      Nat.add_sub_cancel_left, ih]

/-- A label is found only from such a place. -/
theorem isBoundary_of_go {start left : Nat} {text : List Char} {range : Nat × Nat}
    (hle : left ≤ byteLength text) (h : labelRange?.go start left text = some range) :
    IsBoundary text left := by
  induction text generalizing left with
  | nil => exact ⟨[], [], rfl, Nat.le_zero.mp hle⟩
  | cons c rest ih =>
    rw [labelRange?.go] at h
    split at h
    · next hzero => exact ⟨[], c :: rest, rfl, hzero⟩
    · split at h
      · cases h
      · next hsize =>
        rw [byteLength_cons] at hle
        obtain ⟨front, back, rfl, hfront⟩ := ih (Nat.sub_le_iff_le_add'.mpr hle) h
        refine ⟨c :: front, back, rfl, ?_⟩
        rw [byteLength_cons]
        omega

/-- **At a boundary there is a label, and its ends are boundaries.** -/
theorem aligned_of_isBoundary {text : List Char} {offset : Nat} (h : IsBoundary text offset) :
    ∃ range, labelRange? offset text = some range ∧ Aligned text range := by
  have hmin : min offset (byteLength text) = offset := Nat.min_eq_left h.le
  obtain ⟨front, back, rfl, rfl⟩ := h
  refine ⟨(byteLength front, byteLength front + byteLength back.head?.toList), ?_,
    ⟨front, back, rfl, rfl⟩, ?_, Nat.le_add_right _ _⟩
  · rw [labelRange?, hmin, labelRange?_go]
  · cases back with
    | nil => exact ⟨front, [], rfl, rfl⟩
    | cons c back => exact ⟨front ++ [c], back, by simp, by simp⟩

/-- There is a label exactly at boundaries and beyond the end of a text. -/
theorem exists_labelRange?_iff {text : List Char} {offset : Nat} :
    (∃ range, labelRange? offset text = some range) ↔
      IsBoundary text offset ∨ byteLength text ≤ offset := by
  constructor
  · rintro ⟨range, h⟩
    have hboundary : IsBoundary text (min offset (byteLength text)) :=
      isBoundary_of_go (Nat.min_le_right _ _) h
    rcases Nat.le_total offset (byteLength text) with hle | hle
    · exact .inl (Nat.min_eq_left hle ▸ hboundary)
    · exact .inr hle
  · rintro (h | h)
    · obtain ⟨range, hrange, -⟩ := aligned_of_isBoundary h
      exact ⟨range, hrange⟩
    · -- beyond the end the label is that of the end
      have hend : labelRange? offset text = labelRange? (byteLength text) text := by
        rw [labelRange?, labelRange?, Nat.min_eq_right h, Nat.min_self]
      obtain ⟨range, hrange, -⟩ := aligned_of_isBoundary (isBoundary_byteLength text)
      exact ⟨range, hend.trans hrange⟩

/-- Where there is a label, its ends are boundaries. -/
theorem aligned_of_labelRange? {text : List Char} {offset : Nat} {range : Nat × Nat}
    (h : labelRange? offset text = some range) : Aligned text range := by
  have hboundary : IsBoundary text (min offset (byteLength text)) :=
    isBoundary_of_go (Nat.min_le_right _ _) h
  have hclamped : labelRange? offset text = labelRange? (min offset (byteLength text)) text := by
    rw [labelRange?, labelRange?, Nat.min_eq_left (Nat.min_le_right _ _)]
  obtain ⟨range', hrange, haligned⟩ := aligned_of_isBoundary hboundary
  rw [hclamped, hrange] at h
  cases h
  exact haligned

end Report

/-- A position that stands in a text is at such a place. -/
theorem Position.StandsIn.isBoundary {p : Position} {text : List Char} (h : p.StandsIn text .start) :
    IsBoundary text p.offset := by
  obtain ⟨front, back, htext, rfl⟩ := h
  exact ⟨front, back, htext, by rw [offset_advance]; exact Nat.zero_add _⟩

/-! ## Sessions -/

namespace SourceError

open Report Store

variable {earlier : List String} {text : String} {e : SourceError} {s' : Store} {p : Position}

/-- **An error stands in one of the texts of its session.** -/
theorem standsIn_session
    (h : runSource text outermost (initial.2.afterSources outermost earlier) = .error e s')
    (hp : e.position? = some p) : ∃ source ∈ text :: earlier, p.StandsIn source.toList .start := by
  let D := Discipline.ofPlaces
    (fun p => ∃ source ∈ text :: earlier, Position.StandsIn p source.toList .start)
    ⟨text, List.mem_cons_self, Position.standsIn_origin _ _⟩
  have hplaces : ∀ source ∈ text :: earlier, ∀ p, Position.StandsIn p source.toList .start →
      D.place p := fun source hsource p hp => ⟨source, hsource, hp⟩
  have hstore : (initial.2.afterSources outermost earlier).Under D :=
    under_initial.afterSources trivial outermost fun source hsource =>
      hplaces source (List.mem_cons_of_mem _ hsource)
  exact ((hstore.runSource trivial outermost (hplaces text List.mem_cons_self)).2 e s' h).position hp

/-- A fault in reading stands in the text that is read. -/
theorem standsIn_of_read {s : Store} {here : ScopeId} {fault : ReadError}
    (h : runSource text here s = .error (.read fault) s') :
    fault.position.StandsIn text.toList .start := by
  have hplaced := (@Script.read_placed _ text.toList .start fun _ hp => hp).2
  unfold runSource Script.run at h
  split at h
  · cases h
  · split at h
    · next hfault =>
      cases h
      exact hplaced fault hfault
    · cases h

/-- The kind and the position of the error in which a run ends. -/
def reported? {α : Type} : EStateM.Result SourceError Store α → Option (ErrorKind × Position)
  | .ok .. => none
  | .error e _ => do return (← e.kind?, ← e.position?)

/-- What is reported is the error that a run has ended with. -/
theorem exists_of_reported? {α : Type} {result : EStateM.Result SourceError Store α}
    {kind : ErrorKind} {p : Position} (h : reported? result = some (kind, p)) :
    ∃ e s', result = .error e s' ∧ e.kind? = some kind ∧ e.position? = some p := by
  cases result with
  | ok a s' => cases h
  | error e s' =>
    refine ⟨e, s', rfl, ?_⟩
    simpa [reported?, Option.bind_eq_some_iff] using h

/-- **The error of a source alone stands in it.** Its label begins and ends between characters. -/
theorem position_real {source : String} {kind : ErrorKind}
    (h : runSource source outermost initial.2 = .error e s') (hkind : e.kind? = some kind) :
    ∃ p, e.position? = some p ∧ p.offset ≤ byteLength source.toList ∧
      (∃ front back, source.toList = front ++ back ∧ p.offset = byteLength front ∧
        p = Position.start.advance front) ∧
      ∃ range, labelRange? p.offset source.toList = some range ∧ Aligned source.toList range := by
  obtain ⟨p, hp⟩ : ∃ p, e.position? = some p := by
    cases e with
    | read fault => exact ⟨_, rfl⟩
    | run interruption =>
      cases interruption with
      | fault error => exact ⟨_, rfl⟩
      | _ => cases hkind
  have halone : runSource source outermost (initial.2.afterSources outermost []) = .error e s' := h
  obtain ⟨text, htext, hstands⟩ := standsIn_session halone hp
  obtain rfl := List.mem_singleton.mp htext
  have hboundary := hstands.isBoundary
  obtain ⟨front, back, hsplit, hadvance⟩ := hstands
  refine ⟨p, hp, hboundary.le, ⟨front, back, hsplit, ?_, hadvance⟩, aligned_of_isBoundary hboundary⟩
  rw [hadvance, Position.offset_advance]
  exact Nat.zero_add _

/-- Behind a comment with longer characters, an element that is asked for long after its sequence was
built divides by zero where the function says so. -/
theorem position_real_of_lazy_element :
    let source := "# é\ns = iterate(1, |x| 1 / 0); next(s); next(s)"
    ∃ e s', runSource source outermost initial.2 = .error e s' ∧
      e.kind? = some .divisionByZero ∧ e.position? = some ⟨26, 2, 22⟩ ∧
      ∃ range, labelRange? 26 source.toList = some range ∧ Aligned source.toList range := by
  intro source
  obtain ⟨e, s', hrun, hkind, hposition⟩ := exists_of_reported?
    (by decide +kernel : reported? (runSource source outermost initial.2) =
      some (.divisionByZero, ⟨26, 2, 22⟩))
  obtain ⟨p, hp, -, -, hlabel⟩ := position_real hrun hkind
  rw [hposition] at hp
  cases hp
  exact ⟨e, s', hrun, hkind, hposition, hlabel⟩

/-- **What is known of labels in a session.** The error stands in one of the texts. It has a label in
the last one exactly if its offset is between characters there or beyond the end, and then the ends
of the label are between characters and there is a report. So it is if the last text could not be
read, and if all places of the earlier texts are between characters of the last one as far as it
reaches. -/
theorem label_in_session (name : String)
    (h : runSource text outermost (initial.2.afterSources outermost earlier) = .error e s')
    (hp : e.position? = some p) :
    (∃ source ∈ text :: earlier, p.StandsIn source.toList .start) ∧
    ((∃ range, labelRange? p.offset text.toList = some range) ↔
      IsBoundary text.toList p.offset ∨ byteLength text.toList ≤ p.offset) ∧
    (∀ range, labelRange? p.offset text.toList = some range →
      Aligned text.toList range ∧ (e.report? name text).isSome) ∧
    ((∃ fault, e = .read fault) ∨ (∀ source ∈ earlier, ∀ offset, IsBoundary source.toList offset →
        offset < byteLength text.toList → IsBoundary text.toList offset) →
      ∃ range, labelRange? p.offset text.toList = some range) := by
  obtain ⟨source, hsource, hstands⟩ := standsIn_session h hp
  refine ⟨⟨source, hsource, hstands⟩, exists_labelRange?_iff, fun range hrange => ?_, ?_⟩
  · refine ⟨aligned_of_labelRange? hrange, ?_⟩
    unfold report?
    rw [hp]
    cases e.kind? with
    | some kind => simp only [hrange, Option.map_some, Option.isSome_some]
    | none => rfl
  · refine fun hcase => exists_labelRange?_iff.mpr ?_
    rcases hcase with ⟨fault, rfl⟩ | haligned
    · cases hp
      exact .inl (standsIn_of_read h).isBoundary
    · rcases Nat.lt_or_ge p.offset (byteLength text.toList) with hlt | hle
      · rcases List.mem_cons.mp hsource with rfl | hsource
        · exact .inl hstands.isBoundary
        · exact .inl (haligned source hsource p.offset hstands.isBoundary hlt)
      · exact .inr hle

/-- A function of an earlier text divides by zero, and the mark is set in the text that calls it. -/
theorem label_in_session_ascii :
    let earlier := ["f = || 1 / 0"]
    let text := "f() # a call"
    ∃ e s', runSource text outermost (initial.2.afterSources outermost earlier) = .error e s' ∧
      e.position? = some ⟨9, 1, 10⟩ ∧
      (∀ source ∈ earlier, ∀ offset, IsBoundary source.toList offset →
        offset < byteLength text.toList → IsBoundary text.toList offset) ∧
      ∃ range, labelRange? 9 text.toList = some range ∧ Aligned text.toList range ∧
        (e.report? "REPL" text).isSome := by
  intro earlier text
  obtain ⟨e, s', hrun, -, hposition⟩ := exists_of_reported?
    (by decide +kernel : reported? (runSource text outermost
      (initial.2.afterSources outermost earlier)) = some (.divisionByZero, ⟨9, 1, 10⟩))
  have hboundaries : ∀ source ∈ earlier, ∀ offset, IsBoundary source.toList offset →
      offset < byteLength text.toList → IsBoundary text.toList offset :=
    fun _ _ _ _ hlt => isBoundary_of_utf8Size (by simp [text, Char.utf8Size]) (Nat.le_of_lt hlt)
  obtain ⟨-, -, haligned, hlabel⟩ := label_in_session "REPL" hrun hposition
  obtain ⟨range, hrange⟩ := hlabel (.inr hboundaries)
  exact ⟨e, s', hrun, hposition, hboundaries, range, hrange, haligned range hrange⟩

/-- **The mark may fall inside a character of the text that calls.** The position is that of the
division in the earlier text; the later one has a character of two bytes there, and no report. -/
theorem label_inside_character :
    let earlier := ["f = || 1 / 0"]
    let text := "f() # ééé"
    ∃ e s', runSource text outermost (initial.2.afterSources outermost earlier) = .error e s' ∧
      e.position? = some ⟨9, 1, 10⟩ ∧ labelRange? 9 text.toList = none ∧
      e.report? "REPL" text = none := by
  intro earlier text
  obtain ⟨e, s', hrun, hkind, hposition⟩ := exists_of_reported?
    (by decide +kernel : reported? (runSource text outermost
      (initial.2.afterSources outermost earlier)) = some (.divisionByZero, ⟨9, 1, 10⟩))
  have hnone : labelRange? 9 text.toList = none := by decide +kernel
  refine ⟨e, s', hrun, hposition, hnone, ?_⟩
  unfold report?
  rw [hkind, hposition]
  simp only [hnone, Option.map_none]

end SourceError

end Abacus
