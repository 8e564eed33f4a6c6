import Abacus.Text.Position

/-!
# Parts of a text

A text is cut at byte offsets, and only between two characters or at one of its ends: a cut inside a
character or beyond the end gives nothing.

**The law** (`slice?_eq_some_iff`): the part between two offsets is what the text has there, after as
many bytes as the first offset says and with as many bytes as there are between the two.
-/

namespace Abacus

/-- The characters of a text before a byte position; none if the position is inside a character or
beyond the text. -/
def before? : (position : Nat) → List Char → Option (List Char)
  | 0, _ => some []
  | _, [] => none
  | position, c :: rest =>
    if position < c.utf8Size then none
    else (before? (position - c.utf8Size) rest).map (c :: ·)

/-- The characters of a text from a byte position on; none if the position is inside a character or
beyond the text. -/
def after? : (position : Nat) → List Char → Option (List Char)
  | 0, text => some text
  | _, [] => none
  | position, c :: rest =>
    if position < c.utf8Size then none else after? (position - c.utf8Size) rest

/-- The characters of a text between two byte positions, which must be in order. -/
def slice? (start stop : Nat) (text : List Char) : Option (List Char) :=
  if start ≤ stop then (after? start text).bind (before? (stop - start)) else none

/-- The byte position of the last character for which a predicate holds; none if there is no such
character. -/
def lastIndex? (p : Char → Bool) : List Char → Option Nat
  | [] => none
  | c :: rest =>
    match lastIndex? p rest with
    | some position => some (c.utf8Size + position)
    | none => if p c then some 0 else none

variable {position start stop : Nat} {text front back part : List Char}

theorem before?_byteLength (front back : List Char) :
    before? (byteLength front) (front ++ back) = some front := by
  induction front with
  | nil => rw [byteLength_nil, before?]
  | cons c front ih =>
    have hsize := c.utf8Size_pos
    have hlt : ¬ c.utf8Size + byteLength front < c.utf8Size := by omega
    rw [List.cons_append, byteLength_cons, before?, if_neg hlt, Nat.add_sub_cancel_left, ih,
      Option.map_some]
    omega

theorem after?_byteLength (front back : List Char) :
    after? (byteLength front) (front ++ back) = some back := by
  induction front with
  | nil => simp [after?]
  | cons c front ih =>
    have hsize := c.utf8Size_pos
    have hlt : ¬ c.utf8Size + byteLength front < c.utf8Size := by omega
    rw [List.cons_append, byteLength_cons, after?, if_neg hlt, Nat.add_sub_cancel_left, ih]
    omega

theorem before?_eq_some_iff :
    before? position text = some front ↔ ∃ back, text = front ++ back ∧ position = byteLength front := by
  constructor
  · intro h
    fun_induction before? position text generalizing front with
    | case1 text =>
      cases h
      exact ⟨text, rfl, rfl⟩
    | case2 => cases h
    | case3 => cases h
    | case4 position c rest _ hsize ih =>
      obtain ⟨more, hmore, rfl⟩ := Option.map_eq_some_iff.mp h
      obtain ⟨back, rfl, hposition⟩ := ih hmore
      refine ⟨back, rfl, ?_⟩
      rw [byteLength_cons]
      omega
  · rintro ⟨back, rfl, rfl⟩
    exact before?_byteLength front back

theorem after?_eq_some_iff :
    after? position text = some back ↔ ∃ front, text = front ++ back ∧ position = byteLength front := by
  constructor
  · intro h
    fun_induction after? position text with
    | case1 text =>
      cases h
      exact ⟨[], rfl, rfl⟩
    | case2 => cases h
    | case3 => cases h
    | case4 position c rest _ hsize ih =>
      obtain ⟨front, rfl, hposition⟩ := ih h
      refine ⟨c :: front, rfl, ?_⟩
      rw [byteLength_cons]
      omega
  · rintro ⟨front, rfl, rfl⟩
    exact after?_byteLength front back

/-- **A part of a text is what stands between its ends, which are no places inside of characters.** -/
theorem slice?_eq_some_iff :
    slice? start stop text = some part ↔ ∃ front back, text = front ++ part ++ back ∧
      start = byteLength front ∧ stop = byteLength front + byteLength part := by
  rw [slice?]
  constructor
  · intro h
    split at h
    · next hle =>
      obtain ⟨more, hafter, hbefore⟩ := Option.bind_eq_some_iff.mp h
      obtain ⟨front, rfl, rfl⟩ := after?_eq_some_iff.mp hafter
      obtain ⟨back, rfl, hlength⟩ := before?_eq_some_iff.mp hbefore
      refine ⟨front, back, (List.append_assoc ..).symm, rfl, ?_⟩
      omega
    · cases h
  · rintro ⟨front, back, rfl, rfl, rfl⟩
    rw [if_pos (Nat.le_add_right _ _), List.append_assoc, after?_byteLength, Option.bind_some,
      Nat.add_sub_cancel_left, before?_byteLength]

/-- No cut is made inside a character. -/
theorem after?_inside {c : Char} (hinside : position < c.utf8Size) (hpos : 0 < position) :
    after? (byteLength front + position) (front ++ c :: back) = none := by
  induction front with
  | nil => rw [byteLength_nil, Nat.zero_add, List.nil_append, after?, if_pos hinside]; omega
  | cons first front ih =>
    have hlt : ¬ first.utf8Size + byteLength front + position < first.utf8Size := by omega
    rw [List.cons_append, byteLength_cons, after?, if_neg hlt, Nat.add_assoc,
      Nat.add_sub_cancel_left, ih]
    omega

/-! ## The last character of a kind -/

theorem lastIndex?_eq_none {p : Char → Bool} (h : ∀ c ∈ text, p c = false) :
    lastIndex? p text = none := by
  induction text with
  | nil => rfl
  | cons c rest ih =>
    obtain ⟨hc, hrest⟩ := List.forall_mem_cons.mp h
    rw [lastIndex?, ih hrest, hc]
    rfl

/-- The last character of a kind stands after what comes before it, if none comes after it. -/
theorem lastIndex?_append_cons {p : Char → Bool} {c : Char} (hc : p c = true)
    (h : ∀ c ∈ back, p c = false) : lastIndex? p (front ++ c :: back) = some (byteLength front) := by
  induction front with
  | nil => rw [List.nil_append, lastIndex?, lastIndex?_eq_none h, if_pos hc, byteLength_nil]
  | cons first front ih => rw [List.cons_append, lastIndex?, ih, byteLength_cons]

/-- A cut further on cuts off a part: what there is from the first cut on is the part and what there is
from the second one on. -/
theorem exists_slice {rest : List Char} (hstart : after? start text = some back)
    (hstop : after? stop text = some rest) (hle : start ≤ stop) :
    ∃ part, slice? start stop text = some part ∧ back = part ++ rest := by
  obtain ⟨front, rfl, rfl⟩ := after?_eq_some_iff.mp hstart
  obtain ⟨front', happend, rfl⟩ := after?_eq_some_iff.mp hstop
  rcases List.append_eq_append_iff.mp happend with ⟨part, rfl, rfl⟩ | ⟨part, rfl, rfl⟩
  · refine ⟨part, slice?_eq_some_iff.mpr ⟨front, rest, by simp, rfl, byteLength_append ..⟩, rfl⟩
  · -- the second cut is not before the first one, so nothing stands between them
    cases part with
    | nil =>
      rw [List.append_nil]
      exact ⟨[], slice?_eq_some_iff.mpr ⟨front', back, by simp, rfl, by simp⟩, rfl⟩
    | cons c part =>
      have hpos := byteLength_pos (List.cons_ne_nil c part)
      rw [byteLength_append] at hle
      omega

end Abacus
