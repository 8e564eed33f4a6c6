import Abacus.Proofs.Report.Labels
import Abacus.Proofs.Store.Visibility
import Abacus.Prompt.Completion
import Mathlib.Data.List.Nodup
import Mathlib.Data.List.TakeWhile

/-!
# Completion

The cursor stands between two characters of a line; before it is a word, as long as one goes, and
before the word may be another character. Where the word begins is computed as one byte after the
place of that character, and so it is right if that character has one byte. Inside a longer character
nothing can be cut, and the completion ends without an answer.

**The law** (`Completion.completion_exact`): after a character of one byte, and where there is none,
the word is completed to just the visible names and the keywords that begin with it, in order; a
number and no word at all are not completed. After any longer character there is no answer.
-/

namespace Abacus

namespace Store

theorem nodup_eraseDups (names : List String) : names.eraseDups.Nodup := by
  induction hlength : names.length using Nat.strongRecOn generalizing names with
  | ind length ih =>
    cases names with
    | nil => exact List.nodup_nil
    | cons name rest =>
      have hshorter : (rest.filter fun other => !other == name).length < length :=
        hlength ▸ Nat.lt_succ_of_le (List.length_filter_le _ _)
      rw [List.eraseDups_cons, List.nodup_cons, List.mem_eraseDups, List.mem_filter]
      exact ⟨fun h => by simp at h, ih _ hshorter _ rfl⟩

theorem nodup_sortedNames {s : Store} {scope : ScopeId} : (s.sortedNames scope).Nodup :=
  (List.mergeSort_perm _ _).nodup_iff.mpr (nodup_eraseDups _)

end Store

namespace Completion

variable {lead word rest : List Char}

/-! ## The word before the cursor -/

/-- The text before the cursor ends in this word, and in no longer one. -/
structure EndsInWord (lead word : List Char) : Prop where
  inside : ∀ c ∈ word, isWordChar c = true
  longest : ∀ c, lead.getLast? = some c → isWordChar c = false

/-- Every text ends in a word, perhaps an empty one. -/
theorem exists_endsInWord (front : List Char) :
    ∃ lead word, front = lead ++ word ∧ EndsInWord lead word := by
  refine ⟨(front.reverse.dropWhile isWordChar).reverse, (front.reverse.takeWhile isWordChar).reverse,
    ?_, fun c hc => List.mem_takeWhile_imp (List.mem_reverse.mp hc), fun c hc => ?_⟩
  · rw [← List.reverse_append, List.takeWhile_append_dropWhile, List.reverse_reverse]
  · have hstop := List.head?_dropWhile_not isWordChar front.reverse
    rw [List.getLast?_reverse] at hc
    rwa [hc] at hstop

/-- The word begins one byte after the place of the character before it. -/
theorem EndsInWord.wordStart_of_snoc {c : Char} (h : EndsInWord (lead ++ [c]) word) :
    wordStart (lead ++ [c] ++ word) = byteLength lead + 1 := by
  have hc : (!isWordChar c) = true := by rw [h.longest c List.getLast?_concat]; rfl
  have hword : ∀ c ∈ word, (!isWordChar c) = false := fun c hc => by rw [h.inside c hc]; rfl
  rw [wordStart, List.append_assoc, List.singleton_append, lastIndex?_append_cons hc hword,
    Option.map_some, Option.getD_some]

/-- The computed place is that of the word if the character before it has one byte, and there is none
before the first word. -/
theorem EndsInWord.wordStart_eq (h : EndsInWord lead word)
    (hnarrow : ∀ c, lead.getLast? = some c → c.utf8Size = 1) :
    wordStart (lead ++ word) = byteLength lead := by
  rcases List.eq_nil_or_concat' lead with rfl | ⟨lead, c, rfl⟩
  · have hword : ∀ c ∈ word, (!isWordChar c) = false := fun c hc => by rw [h.inside c hc]; rfl
    rw [List.nil_append, wordStart, lastIndex?_eq_none hword]
    rfl
  · have hc : c.utf8Size = 1 := hnarrow c List.getLast?_concat
    rw [h.wordStart_of_snoc, byteLength_append, byteLength_cons, byteLength_nil, hc]

/-- **Nothing is cut off after a wide character**: the part from the computed place to the cursor is the
word exactly if the character before the word has one byte, and no part of the line otherwise. -/
theorem EndsInWord.slice?_wordStart (h : EndsInWord lead word) :
    slice? (wordStart (lead ++ word)) (byteLength (lead ++ word)) (lead ++ word ++ rest) =
      if lead.getLast?.all (·.utf8Size = 1) then some word else none := by
  split
  · next hnarrow =>
    have hstart := h.wordStart_eq fun c hc => by simpa [hc] using hnarrow
    exact slice?_eq_some_iff.mpr ⟨lead, rest, rfl, hstart, byteLength_append ..⟩
  · next hwide =>
    rcases List.eq_nil_or_concat' lead with rfl | ⟨lead, c, rfl⟩
    · exact absurd rfl hwide
    · -- one byte after the place of a longer character is a place inside it
      have hc : 1 < c.utf8Size := by
        have hpos := c.utf8Size_pos
        have hne : c.utf8Size ≠ 1 := by simpa using hwide
        omega
      rw [h.wordStart_of_snoc, slice?, if_pos (by simp; omega), List.append_assoc, List.append_assoc,
        List.singleton_append, after?_inside hc Nat.one_pos, Option.bind_none]

/-! ## The candidates -/

/-- The candidates are the visible names and the keywords that begin with the word, in order. A name
comes up twice only if it is bound although it is a keyword. -/
structure Exact (s : Store) (scope : ScopeId) (word : List Char) (names : List String) : Prop where
  mem_iff : ∀ name, name ∈ names ↔ word <+: name.toList ∧
    ((∃ v, s.lookup scope name = .ok v) ∨ ∃ keyword : Keyword, name = keyword.text)
  sorted : names.Pairwise fun a b => ¬ b < a
  nodup : (∀ (keyword : Keyword) v, s.lookup scope keyword.text ≠ .ok v) → names.Nodup

/-- The keywords are offered by their texts. -/
theorem mem_keywords {name : String} :
    name ∈ Keyword.all.map Keyword.text ↔ ∃ keyword : Keyword, name = keyword.text := by
  rw [List.mem_map]
  constructor
  · rintro ⟨keyword, -, rfl⟩
    exact ⟨keyword, rfl⟩
  · rintro ⟨keyword, rfl⟩
    exact ⟨keyword, by cases keyword <;> decide, rfl⟩

/-- The candidates are the visible names and keywords that begin with the word, sorted and each
once. -/
theorem exact_candidates (s : Store) (scope : ScopeId) (word : List Char) :
    Exact s scope word (candidates (s.sortedNames scope) (String.ofList word)) where
  mem_iff name := by
    rw [candidates, List.mem_mergeSort, List.mem_filter, List.mem_append, Store.mem_sortedNames,
      Store.contains_iff_lookup, mem_keywords, String.isPrefixOf, String.startsWith_string_iff,
      String.toList_ofList, and_comm]
  sorted := by
    have htrans (a b c : String) (hab : !decide (b < a)) (hbc : !decide (c < b)) :
        !decide (c < a) := by
      rw [Bool.not_eq_true', decide_eq_false_iff_not] at *
      exact String.le_trans hab hbc
    have htotal (a b : String) : !decide (b < a) || !decide (a < b) := by
      rw [Bool.or_eq_true, Bool.not_eq_true', Bool.not_eq_true', decide_eq_false_iff_not,
        decide_eq_false_iff_not]
      exact String.le_total a b
    refine (List.pairwise_mergeSort htrans htotal _).imp fun h => ?_
    rwa [Bool.not_eq_true', decide_eq_false_iff_not] at h
  nodup hunbound := by
    refine (List.mergeSort_perm _ _).nodup_iff.mpr (List.Nodup.filter _ ?_)
    refine Store.nodup_sortedNames.append (by decide) fun name hname hkeyword => ?_
    obtain ⟨v, hv⟩ := Store.contains_iff_lookup.mp (Store.mem_sortedNames.mp hname)
    obtain ⟨keyword, rfl⟩ := mem_keywords.mp hkeyword
    exact hunbound keyword v hv

/-! ## The law -/

variable {s : Store} {scope : ScopeId}

/-- After a character of more than one byte the word would begin inside it, and nothing is answered.
-/
theorem complete_of_wide (h : EndsInWord lead word)
    (hwide : ∃ c, lead.getLast? = some c ∧ c.utf8Size ≠ 1) :
    complete s scope (lead ++ word ++ rest) (byteLength (lead ++ word)) = none := by
  obtain ⟨c, hc, hsize⟩ := hwide
  have hslice : slice? (wordStart (lead ++ word)) (byteLength (lead ++ word)) (lead ++ word ++ rest) =
      none := by
    rw [h.slice?_wordStart, hc]
    exact if_neg (by simpa using hsize)
  rw [complete, before?_byteLength]
  simp only [Option.bind_eq_bind, Option.bind_some, hslice, Option.bind_none]

/-- After any other the candidates for the word are given, unless a digit begins it. -/
theorem complete_of_narrow (h : EndsInWord lead word)
    (hnarrow : ∀ c, lead.getLast? = some c → c.utf8Size = 1) :
    complete s scope (lead ++ word ++ rest) (byteLength (lead ++ word)) =
      if word.head?.all Char.isDigit then some ⟨byteLength (lead ++ word), []⟩
      else some ⟨byteLength lead, candidates (s.sortedNames scope) (String.ofList word)⟩ := by
  have hslice : slice? (byteLength lead) (byteLength (lead ++ word)) (lead ++ word ++ rest) =
      some word := slice?_eq_some_iff.mpr ⟨lead, rest, rfl, rfl, byteLength_append ..⟩
  rw [complete, before?_byteLength]
  simp only [Option.bind_eq_bind, Option.bind_some, h.wordStart_eq hnarrow, hslice]
  cases word <;> rfl

/-- **Completion is exact where it answers.** Wherever the cursor stands between the characters of a
line, the text before it ends in a longest word. If the character before that has more than one byte,
there is no answer. Otherwise there is one: it is empty and begins at the cursor if the word is empty
or begins with a digit, and else it begins where the word does and has just the visible names and the
keywords that begin with the word, in order. -/
theorem completion_exact (s : Store) (scope : ScopeId) :
    (∀ {line : List Char} {position : Nat}, IsBoundary line position → ∃ lead word rest,
      line = lead ++ word ++ rest ∧ position = byteLength (lead ++ word) ∧ EndsInWord lead word) ∧
    ∀ {lead word : List Char} (rest : List Char), EndsInWord lead word →
      let answer := complete s scope (lead ++ word ++ rest) (byteLength (lead ++ word))
      (answer = none ↔ ∃ c, lead.getLast? = some c ∧ c.utf8Size ≠ 1) ∧
      ((∀ c, lead.getLast? = some c → c.utf8Size = 1) →
        ((∀ c, word.head? = some c → c.isDigit) →
          answer = some ⟨byteLength (lead ++ word), []⟩) ∧
        ((∃ c, word.head? = some c ∧ ¬ c.isDigit) → ∃ names,
          answer = some ⟨byteLength lead, names⟩ ∧ Exact s scope word names)) := by
  refine ⟨fun h => ?_, fun {lead word} rest hword => ?_⟩
  · obtain ⟨front, rest, rfl, rfl⟩ := h
    obtain ⟨lead, word, rfl, hword⟩ := exists_endsInWord front
    exact ⟨lead, word, rest, rfl, rfl, hword⟩
  intro answer
  refine ⟨⟨fun hnone => ?_, complete_of_wide hword⟩, fun hnarrow => ⟨fun hdigit => ?_,
    fun ⟨c, hc, hname⟩ => ⟨_, ?_, exact_candidates s scope word⟩⟩⟩
  · by_contra hnarrow
    push Not at hnarrow
    have hanswer : _ = none := (complete_of_narrow hword hnarrow).symm.trans hnone
    split at hanswer <;> cases hanswer
  · refine (complete_of_narrow hword hnarrow).trans (if_pos ?_)
    cases hhead : word.head? with
    | none => rfl
    | some c => exact hdigit c hhead
  · refine (complete_of_narrow hword hnarrow).trans (if_neg ?_)
    rwa [hc, Option.all_some]

/-- After a sign, the beginning of a name is completed in its place. -/
theorem completion_exact_after_sign :
    EndsInWord ['1', '+'] ['i', 'f'] ∧ ∃ names,
      complete Store.initial.2 Store.outermost ['1', '+', 'i', 'f'] 4 = some ⟨2, names⟩ ∧
        Exact Store.initial.2 Store.outermost ['i', 'f'] names := by
  have hword : EndsInWord ['1', '+'] ['i', 'f'] :=
    ⟨List.forall_mem_cons.mpr ⟨by decide, List.forall_mem_singleton.mpr (by decide)⟩,
      fun c hc => by cases hc; decide⟩
  obtain ⟨-, hnarrow⟩ := (completion_exact Store.initial.2 Store.outermost).2 [] hword
  obtain ⟨-, hanswer⟩ := hnarrow fun c hc => by cases hc; decide
  exact ⟨hword, hanswer ⟨'i', rfl, by decide⟩⟩

/-- After a letter with an accent there is no answer, although the cursor stands between two
characters. -/
theorem completion_fails_after_wide :
    IsBoundary ['é', 'p', 'r'] 4 ∧
      complete Store.initial.2 Store.outermost ['é', 'p', 'r'] 4 = none :=
  ⟨⟨['é', 'p', 'r'], [], rfl, by decide⟩, by decide +kernel⟩

end Completion

end Abacus
