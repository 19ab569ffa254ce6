import ImageRecipe.Text.Blank
import Mathlib.Data.List.DropRight

/-!
# Trimmed texts

Trimming cuts blanks off both ends of a text, as many as there are, and nothing
else.  So what is left is `Trimmed`, and a text is trimmed already if and only
if trimming leaves it as it is.
-/

namespace ImageRecipe.Text

theorem isBlank_of_mem_head?_dropWhile {s : List Char} {c : Char}
    (h : c ∈ (s.dropWhile isBlank).head?) : isBlank c = false := by
  have hnot := s.head?_dropWhile_not isBlank
  rwa [h] at hnot

/-- **Trimming cuts blanks off both ends**, as many as there are, and nothing else. -/
theorem exists_eq_append_trim (text : String) : ∃ front back : List Char,
    text.toList = front ++ (trim text).toList ++ back ∧
    (∀ c ∈ front, isBlank c = true) ∧ (∀ c ∈ back, isBlank c = true) ∧
    (∀ c ∈ (trim text).toList.head?, isBlank c = false) ∧
    ∀ c ∈ (trim text).toList.getLast?, isBlank c = false := by
  have hmiddle : (trim text).toList = (text.toList.dropWhile isBlank).rdropWhile isBlank :=
    String.toList_ofList
  rw [hmiddle]
  refine ⟨text.toList.takeWhile isBlank, (text.toList.dropWhile isBlank).rtakeWhile isBlank, ?_,
    fun _ => List.mem_takeWhile_imp, fun _ => List.mem_rtakeWhile_imp, ?_, ?_⟩
  · rw [List.append_assoc, List.rdropWhile_append_rtakeWhile, List.takeWhile_append_dropWhile]
  · intro c hc
    obtain ⟨back, hback⟩ := List.rdropWhile_prefix isBlank (text.toList.dropWhile isBlank)
    refine isBlank_of_mem_head?_dropWhile (s := text.toList) ?_
    rw [← hback, Option.mem_def, List.head?_append, Option.mem_def.mp hc, Option.some_or]
  · intro c hc
    rw [List.rdropWhile, List.getLast?_reverse] at hc
    exact isBlank_of_mem_head?_dropWhile hc

/-- The text neither starts nor ends with a blank. -/
structure Trimmed (text : String) : Prop where
  head : ∀ c ∈ text.toList.head?, isBlank c = false
  last : ∀ c ∈ text.toList.getLast?, isBlank c = false

theorem trimmed_trim (text : String) : Trimmed (trim text) := by
  obtain ⟨_, _, _, _, _, hhead, hlast⟩ := exists_eq_append_trim text
  exact ⟨hhead, hlast⟩

theorem Trimmed.trim_eq {text : String} (h : Trimmed text) : trim text = text := by
  obtain ⟨front, back, heq, hfront, hback, _⟩ := exists_eq_append_trim text
  -- a blank that was cut off would be the first or the last character of the text
  have hfront : front = [] := by
    cases front with
    | nil => rfl
    | cons c front =>
      have hc := h.head c (by rw [heq]; rfl)
      rw [hfront c List.mem_cons_self] at hc
      cases hc
  have hback : back = [] := by
    rcases back.eq_nil_or_concat with rfl | ⟨back, c, rfl⟩
    · rfl
    · have hc := h.last c (by rw [heq]; simp)
      rw [hback c (by simp)] at hc
      cases hc
  rw [hfront, hback, List.nil_append, List.append_nil] at heq
  exact (String.toList_inj.mp heq).symm

/-- Between blanks a word without blanks is what trimming leaves. -/
theorem trimChars_append {front word back : List Char} (hfront : ∀ c ∈ front, isBlank c = true)
    (hword : ∀ c ∈ word, isBlank c = false) (hback : ∀ c ∈ back, isBlank c = true) :
    trimChars (front ++ word ++ back) = word := by
  have hkeep : ∀ w r : List Char, (∀ c ∈ w, isBlank c = false) → w ≠ [] →
      (w ++ r).dropWhile isBlank = w ++ r := by
    intro w r hw hne
    obtain ⟨c, w, rfl⟩ := List.exists_cons_of_ne_nil hne
    rw [List.cons_append, List.dropWhile_cons_of_neg]
    simp [hw c List.mem_cons_self]
  have hend : ∀ s : List Char, (∀ c ∈ s, isBlank c = true) → s.dropWhile isBlank = [] :=
    fun s hs => List.dropWhile_eq_nil_iff.mpr hs
  rw [trimChars, List.append_assoc, List.dropWhile_append_of_pos hfront]
  by_cases hne : word = []
  · rw [hne, List.nil_append, hend back hback]
    rfl
  · have hlast := hkeep word.reverse [] (by simpa using hword) (by simpa using hne)
    rw [List.append_nil] at hlast
    rw [hkeep word back hword hne, trimRight, List.reverse_append,
      List.dropWhile_append_of_pos (by simpa using hback), hlast, List.reverse_reverse]

/-- Something is left of a text that is not blank. -/
theorem trim_ne_empty {text : String} (h : allBlank text = false) : trim text ≠ "" := by
  intro hempty
  obtain ⟨front, back, heq, hfront, hback, -⟩ := exists_eq_append_trim text
  have hblank : text.toList.all isBlank = true := by
    rw [heq, hempty, List.all_eq_true]
    intro c hc
    rcases List.mem_append.mp (by simpa using hc) with hc | hc
    · exact hfront c hc
    · exact hback c hc
  rw [allBlank, hblank] at h
  cases h

end ImageRecipe.Text
