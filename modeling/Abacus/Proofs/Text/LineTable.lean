import Abacus.Text.LineTable
import Abacus.Text.Slice
import Mathlib.Data.List.Induction

/-!
# Line tables tell positions

A line table searches for a line and counts the characters of that line; reading walks over every
character.

**The laws** (`LineTable.position_byteLength`, `LineTable.position_agrees_with_reading`): at the end
of a front part of its text a line table tells the position at which reading that front part ends; and
it tells it whichever way the line is searched for, because the beginnings of the lines that have been
passed come before all others.
-/

namespace Abacus

/-! ## Front parts -/

/-- The lines of two texts are those of each. -/
theorem lineStarts_append (offset : Nat) (front back : List Char) :
    lineStarts offset (front ++ back) =
      lineStarts offset front ++ lineStarts (offset + byteLength front) back := by
  induction front generalizing offset with
  | nil => simp [lineStarts]
  | cons c rest ih =>
    by_cases hc : c = '\n'
    · simp [lineStarts, hc, ih, Nat.add_assoc]
    · simp [lineStarts, hc, ih, Nat.add_assoc]

/-- Every later line begins behind the place where the text begins. -/
theorem lt_of_mem_lineStarts {offset start : Nat} {text : List Char}
    (h : start ∈ lineStarts offset text) : offset < start := by
  induction text generalizing offset with
  | nil => simp [lineStarts] at h
  | cons c rest ih =>
    by_cases hc : c = '\n'
    · simp only [lineStarts, hc, if_true, List.mem_cons] at h
      rcases h with rfl | h
      · exact Nat.lt_add_of_pos_right (Char.utf8Size_pos _)
      · exact Nat.lt_of_le_of_lt (Nat.le_add_right _ _) (ih h)
    · simp only [lineStarts, hc, if_false] at h
      exact Nat.lt_of_le_of_lt (Nat.le_add_right _ _) (ih h)

/-- No line starts beyond the end. -/
theorem le_of_mem_lineStarts {offset start : Nat} {text : List Char}
    (h : start ∈ lineStarts offset text) : start ≤ offset + byteLength text := by
  induction text generalizing offset with
  | nil => simp [lineStarts] at h
  | cons c rest ih =>
    rw [byteLength_cons, ← Nat.add_assoc]
    by_cases hc : c = '\n'
    · subst hc
      simp only [lineStarts, if_true, List.mem_cons] at h
      rcases h with rfl | h
      · exact Nat.le_add_right _ _
      · exact ih h
    · simp only [lineStarts, hc, if_false] at h
      exact ih h

/-- The lines that begin in a front part are those that begin at or before its end. -/
theorem takeWhile_lineStarts (front back : List Char) :
    (lineStarts 0 (front ++ back)).takeWhile (· ≤ byteLength front) = lineStarts 0 front := by
  have hfront : ∀ start ∈ lineStarts 0 front, decide (start ≤ byteLength front) = true := by
    intro start h
    simpa using le_of_mem_lineStarts h
  have hback : (lineStarts (byteLength front) back).takeWhile (· ≤ byteLength front) = [] := by
    cases hstarts : lineStarts (byteLength front) back with
    | nil => rfl
    | cons start more =>
      have hlt : byteLength front < start :=
        lt_of_mem_lineStarts (hstarts ▸ List.mem_cons_self)
      exact List.takeWhile_cons_of_neg (by simpa using hlt)
  rw [lineStarts_append, Nat.zero_add, List.takeWhile_append_of_pos hfront, hback, List.append_nil]

/-- Before the end of a part stand its characters. -/
theorem charactersBefore_byteLength (front back : List Char) :
    charactersBefore (byteLength front) (front ++ back) = front.length := by
  induction front with
  | nil => cases back <;> simp [charactersBefore]
  | cons c rest ih =>
    have hsize := c.utf8Size_pos
    have hne : byteLength (c :: rest) ≠ 0 := by simp only [byteLength_cons]; omega
    rw [List.cons_append, charactersBefore, if_neg hne, byteLength_cons, Nat.add_sub_cancel_left, ih,
      List.length_cons]

/-! ## Columns -/

/-- The offset at which the last line of a text begins. -/
def lastLineStart (text : List Char) : Nat := (lineStarts 0 text).getLastD 0

/-- A line feed starts a line behind itself. -/
theorem lastLineStart_append_lineFeed (text : List Char) :
    lastLineStart (text ++ ['\n']) = byteLength (text ++ ['\n']) := by
  simp [lastLineStart, lineStarts_append, lineStarts]

/-- No other character starts one. -/
theorem lineStarts_append_of_ne {c : Char} (hc : c ≠ '\n') (text : List Char) :
    lineStarts 0 (text ++ [c]) = lineStarts 0 text := by
  simp [lineStarts_append, lineStarts, hc]

/-- The last line of a text begins after one of its front parts. -/
theorem exists_lastLineStart (text : List Char) :
    ∃ front line, text = front ++ line ∧ lastLineStart text = byteLength front := by
  induction text using List.reverseRecOn with
  | nil => exact ⟨[], [], rfl, rfl⟩
  | append_singleton text c ih =>
    by_cases hc : c = '\n'
    · subst hc
      exact ⟨text ++ ['\n'], [], by simp, lastLineStart_append_lineFeed text⟩
    · obtain ⟨front, line, htext, hstart⟩ := ih
      refine ⟨front, line ++ [c], by rw [htext, List.append_assoc], ?_⟩
      rw [lastLineStart, lineStarts_append_of_ne hc]
      exact hstart

/-- The characters of the last line of a text are those behind the place where it begins. -/
theorem length_eq_of_lastLineStart {text front line : List Char} (htext : text = front ++ line)
    (hstart : lastLineStart text = byteLength front) :
    text.length - charactersBefore (lastLineStart text) text = line.length := by
  rw [hstart, htext, charactersBefore_byteLength, List.length_append, Nat.add_sub_cancel_left]

namespace LineTable

variable (origin : Position) (front back : List Char)

/-- The number of characters between the last line start and the end of a front part. -/
def lastColumn (text : List Char) : Nat := text.length - charactersBefore (lastLineStart text) text

/-- What comes behind a place changes nothing before it. -/
theorem charactersBefore_lastLineStart :
    charactersBefore (lastLineStart front) (front ++ back) =
      charactersBefore (lastLineStart front) front := by
  obtain ⟨lines, line, hfront, hstart⟩ := exists_lastLineStart front
  rw [hstart, hfront, List.append_assoc, charactersBefore_byteLength, charactersBefore_byteLength]

/-- Behind a line feed the column is zero. -/
theorem lastColumn_append_lineFeed (text : List Char) : lastColumn (text ++ ['\n']) = 0 := by
  have h := charactersBefore_byteLength (text ++ ['\n']) []
  rw [List.append_nil] at h
  rw [lastColumn, lastLineStart_append_lineFeed, h, Nat.sub_self]

/-- Any other character is one column. -/
theorem lastColumn_append_of_ne {c : Char} (hc : c ≠ '\n') (text : List Char) :
    lastColumn (text ++ [c]) = lastColumn text + 1 := by
  obtain ⟨lines, line, htext, hstart⟩ := exists_lastLineStart text
  have hsame : lastLineStart (text ++ [c]) = lastLineStart text := by
    rw [lastLineStart, lineStarts_append_of_ne hc, lastLineStart]
  have hle : charactersBefore (lastLineStart text) text ≤ text.length := by
    rw [hstart, htext, charactersBefore_byteLength]
    simp
  rw [lastColumn, hsame, charactersBefore_lastLineStart, lastColumn, List.length_append,
    List.length_singleton]
  omega

/-- What a line table tells at the end of a front part, by the front part alone. -/
theorem position_eq : (ofText (front ++ back) origin).position (byteLength front) =
    ⟨origin.offset + byteLength front, origin.line + (lineStarts 0 front).length,
      if (lineStarts 0 front).isEmpty then origin.column + lastColumn front
      else lastColumn front + 1⟩ := by
  have hcolumn := charactersBefore_lastLineStart front back
  rw [lastLineStart] at hcolumn
  simp only [position, ofText, takeWhile_lineStarts, charactersBefore_byteLength, hcolumn, lastColumn,
    lastLineStart]

/-- **At the end of a front part of its text a line table tells the position at which reading that
front part ends.** -/
theorem position_byteLength : (ofText (front ++ back) origin).position (byteLength front) =
    origin.advance front := by
  rw [position_eq]
  induction front using List.reverseRecOn with
  | nil => simp [lineStarts, lastColumn]
  | append_singleton front c ih =>
    rw [Position.advance_append, ← ih, Position.advance_cons, Position.advance_nil, Position.step]
    by_cases hc : c = '\n'
    · subst hc
      simp [lineStarts_append, lineStarts, lastColumn_append_lineFeed, Nat.add_assoc]
    · rw [if_neg hc, lineStarts_append_of_ne hc, lastColumn_append_of_ne hc]
      by_cases hempty : (lineStarts 0 front).isEmpty
      · simp [hempty, Nat.add_assoc]
      · simp [hempty, Nat.add_assoc]

/-! ## Searching for a line -/

/-- A test parts a list at a place: it succeeds before the place and fails from there on. That is what a
search by halves finds in a list that has such a place. -/
structure Parts (test : Nat → Prop) (xs : List Nat) (place : Nat) : Prop where
  le_length : place ≤ xs.length
  before : ∀ x ∈ xs.take place, test x
  behind : ∀ x ∈ xs.drop place, ¬ test x

/-- A test parts two lists put together where it succeeds on the first one only, and nowhere else. -/
theorem parts_append_iff {test : Nat → Prop} {xs ys : List Nat} (hxs : ∀ x ∈ xs, test x)
    (hys : ∀ y ∈ ys, ¬ test y) {place : Nat} : Parts test (xs ++ ys) place ↔ place = xs.length := by
  constructor
  · intro h
    rcases Nat.lt_trichotomy place xs.length with hlt | heq | hgt
    · have hmem : xs[place] ∈ (xs ++ ys).drop place :=
        List.mem_drop_iff_getElem.mpr ⟨0, by simp; omega, by simp [List.getElem_append_left hlt]⟩
      exact absurd (hxs _ (List.getElem_mem hlt)) (h.behind _ hmem)
    · exact heq
    · have hle := h.le_length
      rw [List.length_append] at hle
      have hlt : 0 < ys.length := by omega
      have hmem : ys[0] ∈ (xs ++ ys).take place := by
        rw [List.take_append, List.take_of_length_le (Nat.le_of_lt hgt)]
        exact List.mem_append_right _ (List.mem_take_iff_getElem.mpr ⟨0, by omega, rfl⟩)
      exact absurd (h.before _ hmem) (hys _ (List.getElem_mem hlt))
  · rintro rfl
    exact ⟨by simp, by simpa using hxs, by simpa using hys⟩

/-- **The lines of a text are parted by every place in it**: those that have begun there come before all
others. -/
theorem parts_lineStarts {place : Nat} :
    Parts (· ≤ byteLength front) (0 :: lineStarts 0 (front ++ back)) place ↔
      place = (lineStarts 0 front).length + 1 := by
  rw [lineStarts_append, Nat.zero_add, ← List.cons_append]
  refine parts_append_iff ?_ fun start hstart => Nat.not_le_of_lt (lt_of_mem_lineStarts hstart)
  refine List.forall_mem_cons.mpr ⟨Nat.zero_le _, fun start hstart => ?_⟩
  simpa using le_of_mem_lineStarts hstart

/-- The last line that has begun at the end of a front part is the last line of the front part. -/
theorem getElem?_lineStarts :
    (0 :: lineStarts 0 (front ++ back))[(lineStarts 0 front).length]? = some (lastLineStart front) := by
  have hlast : (0 :: lineStarts 0 front).getLast? = some (lastLineStart front) := by
    rw [List.getLast?_cons, lastLineStart, List.getLastD_eq_getLast?]
  rw [List.getLast?_eq_getElem?] at hlast
  rw [lineStarts_append, ← List.cons_append, List.getElem?_append_left (by simp)]
  exact hlast

/-- **Looking a position up and reading up to it agree.** At every place between two characters of a
text, whatever the position is at which the text stands, a line table tells the position at which
reading the text before the place ends. It is the position that comes of a search: there is just one
number of lines that have begun at the place, all before the others; the text between the beginning of
the last one and the place is a part of the text, and its characters make the column, after that of the
origin on the origin's own line. And reading in two parts ends where reading the whole ends. -/
theorem position_agrees_with_reading (text : List Char) (origin : Position) :
    (∀ (offset : Nat) (front : List Char), before? offset text = some front →
      (ofText text origin).position offset = origin.advance front ∧
      ∃ (line start : Nat) (part : List Char),
        (∀ passed, Parts (· ≤ offset) (0 :: (ofText text origin).starts) passed ↔ passed = line + 1) ∧
        (0 :: (ofText text origin).starts)[line]? = some start ∧
        slice? start offset text = some part ∧
        (ofText text origin).position offset = ⟨origin.offset + offset, origin.line + line,
          if line = 0 then origin.column + part.length else part.length + 1⟩) ∧
    ∀ x y : List Char, origin.advance (x ++ y) = (origin.advance x).advance y := by
  refine ⟨fun offset front hfront => ?_, Position.advance_append origin⟩
  obtain ⟨back, rfl, rfl⟩ := before?_eq_some_iff.mp hfront
  refine ⟨position_byteLength origin front back, ?_⟩
  obtain ⟨lines, part, hpart, hstart⟩ := exists_lastLineStart front
  refine ⟨(lineStarts 0 front).length, lastLineStart front, part, fun _ => parts_lineStarts front back,
    getElem?_lineStarts front back, ?_, ?_⟩
  · have hlength : byteLength front = byteLength lines + byteLength part := by
      rw [hpart, byteLength_append]
    exact slice?_eq_some_iff.mpr ⟨lines, back, by rw [hpart], hstart, hlength⟩
  · rw [position_eq, lastColumn, length_eq_of_lastLineStart hpart hstart]
    simp [List.isEmpty_iff, List.length_eq_zero_iff]

/-- The second line of a text that stands further on in a longer one, behind a letter of two bytes. -/
theorem position_agrees_with_reading_second_line :
    let text := "aé\nüb".toList
    let origin : Position := ⟨10, 3, 5⟩
    before? 6 text = some "aé\nü".toList ∧
      (ofText text origin).position 6 = origin.advance "aé\nü".toList ∧
      (ofText text origin).position 6 = ⟨16, 4, 2⟩ ∧ Parts (· ≤ 6) [0, 4] 2 := by
  intro text origin
  have hfront : before? 6 text = some "aé\nü".toList := by decide
  obtain ⟨hadvance, line, _, _, hparts, -, -, hposition⟩ :=
    (position_agrees_with_reading text origin).1 6 _ hfront
  have hvalue : (ofText text origin).position 6 = ⟨16, 4, 2⟩ := hadvance.trans (by decide)
  have hline : 4 = 3 + line := congrArg Position.line (hvalue.symm.trans hposition)
  exact ⟨hfront, hadvance, hvalue, (hparts 2).mpr (by omega)⟩

end LineTable

end Abacus
