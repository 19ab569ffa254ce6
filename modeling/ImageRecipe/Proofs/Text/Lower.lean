import ImageRecipe.Text.Lower
import Mathlib.Data.List.Basic

/-!
# Small letters of a word

Which texts come to a word of small letters `a` to `z`.  Two characters that
are not ASCII have an ASCII letter among their small letters: the Kelvin sign,
of which it is `k`, and `İ`, of which it is `i` with a dot behind it.  So a word
without `k` is the lower case of its spellings in letters `A` to `Z` and `a` to
`z`, and of no other text.  `Lowers` leaves open which of its two small letters
a capital sigma has.
-/

namespace ImageRecipe.Text

/-! ### Single characters -/

/-- In ASCII the letters `A` to `Z` are all the capital letters there are. -/
theorem find?_capitalRuns {n : Nat} (h : n < 0x80) : capitalRuns.find? (inRun n)
    = if 0x41 ≤ n ∧ n ≤ 0x5A then some (0x41, 0x5A, 1, 0x61) else none := by
  have hruns : capitalRuns = (0x41, 0x5A, 1, 0x61) :: capitalRuns.tail := rfl
  have hlater : ∀ run ∈ capitalRuns.tail, 0x80 ≤ run.1 := by decide +kernel
  have hnone : capitalRuns.tail.find? (inRun n) = none := by
    rw [List.find?_eq_none]
    intro run hrun
    have hbeyond := hlater run hrun
    simp only [inRun, Bool.and_eq_true, decide_eq_true_eq]
    omega
  have hfirst : inRun n (0x41, 0x5A, 1, 0x61) = decide (0x41 ≤ n ∧ n ≤ 0x5A) := by
    simp [inRun, Nat.mod_one]
  rw [hruns, List.find?_cons, hnone, hfirst]
  by_cases hn : 0x41 ≤ n ∧ n ≤ 0x5A
  · simp [hn]
  · rw [if_neg hn, decide_eq_false hn]

theorem lowerChar_of_ascii {c : Char} (h : c.toNat < 0x80) : lowerChar c = [c.toLower] := by
  have hall : ∀ n < 0x80, (if 0x41 ≤ n ∧ n ≤ 0x5A then Char.ofNat (0x61 + (n - 0x41))
      else Char.ofNat n) = (Char.ofNat n).toLower := by
    decide
  have hc := hall c.toNat h
  have hdotted : (c == '\u0130') = false := by
    rw [beq_eq_false_iff_ne]
    rintro rfl
    exact absurd h (by decide)
  rw [Char.ofNat_toNat] at hc
  rw [lowerChar, hdotted, find?_capitalRuns h, ← hc]
  by_cases hn : 0x41 ≤ c.toNat ∧ c.toNat ≤ 0x5A
  · simp [hn]
  · simp [hn]

/-- What the runs have in common: small letters are characters, and only the Kelvin sign is a
capital letter behind `Z` with one in ASCII. -/
theorem capitalRuns_spec : ∀ run ∈ capitalRuns,
    (run.2.2.2 + (run.2.1 - run.1)).isValidChar ∧ (0xDFFF < run.2.2.2 ∨
      run.2.2.2 + (run.2.1 - run.1) < 0xD800) ∧
    (run.2.1 < 0x80 ∨ 0x80 ≤ run.2.2.2 ∨ run.2.1 = run.1 ∧ run.2.2.2 = 'k'.toNat) := by
  decide +kernel

/-- **Beyond ASCII** no character comes to ASCII letters other than `k`. -/
theorem exists_mem_lowerChar {c : Char} (h : 0x80 ≤ c.toNat) :
    ∃ x ∈ lowerChar c, x = 'k' ∨ 0x80 ≤ x.toNat := by
  rw [lowerChar]
  split
  · exact ⟨'\u0307', by simp, by decide⟩
  · split
    · next run hfind =>
      have hin : inRun c.toNat run = true := List.find?_some hfind
      obtain ⟨hvalid, hrange, hsmall⟩ := capitalRuns_spec run (List.mem_of_find?_eq_some hfind)
      simp only [inRun, Bool.and_eq_true, decide_eq_true_eq] at hin
      have hchar : (run.2.2.2 + (c.toNat - run.1)).isValidChar := by
        simp only [Nat.isValidChar] at hvalid ⊢
        omega
      have hnumber : (Char.ofNat (run.2.2.2 + (c.toNat - run.1))).toNat
          = run.2.2.2 + (c.toNat - run.1) := by
        rw [Char.ofNat, dif_pos hchar]
        rfl
      refine ⟨_, List.mem_singleton_self _, ?_⟩
      rw [hnumber]
      rcases hsmall with hascii | hbeyond | ⟨hone, hkelvin⟩
      · omega
      · exact .inr (by omega)
      · left
        have hsame : c.toNat - run.1 = 0 := by omega
        rw [hsame, hkelvin]
        rfl
    · exact ⟨c, List.mem_singleton_self c, .inr h⟩

/-! ### Words -/

/-- A text and what it comes to in small letters, whichever of the two small letters stands for
each capital sigma. -/
inductive Lowers : List Char → List Char → Prop
  | nil : Lowers [] []
  | char {s t : List Char} (c : Char) : Lowers s t → Lowers (c :: s) (lowerChar c ++ t)
  | finalSigma {s t : List Char} : Lowers s t → Lowers ('Σ' :: s) ('ς' :: t)

theorem lowers_lower (s : List Char) : Lowers s (lower s) := by
  induction s with
  | nil => exact .nil
  | cons c s ih => exact .char c ih

/-- Letters `a` to `z` without `k`. -/
def IsPlainWord (w : List Char) : Prop :=
  ∀ x ∈ w, x.toNat < 0x80 ∧ x ≠ 'k'

/-- Only ASCII letters come to a word. -/
theorem Lowers.toNat_lt {s w : List Char} (h : Lowers s w) (hw : IsPlainWord w) :
    ∀ c ∈ s, c.toNat < 0x80 := by
  induction h with
  | nil => simp
  | @char s t c _ ih =>
    have hascii : c.toNat < 0x80 := by
      by_contra hc
      obtain ⟨x, hx, hnot⟩ := exists_mem_lowerChar (Nat.not_lt.mp hc)
      obtain ⟨hlt, hk⟩ := hw x (List.mem_append_left t hx)
      exact hnot.elim hk (Nat.not_le.mpr hlt)
    exact List.forall_mem_cons.mpr ⟨hascii, ih fun x hx => hw x (List.mem_append_right _ hx)⟩
  | finalSigma _ _ =>
    exact absurd (hw 'ς' List.mem_cons_self).1 (by decide)

theorem Lowers.eq_map_toLower {s t : List Char} (h : Lowers s t) (hs : ∀ c ∈ s, c.toNat < 0x80) :
    t = s.map Char.toLower := by
  induction h with
  | nil => rfl
  | char c _ ih =>
    obtain ⟨hc, hs⟩ := List.forall_mem_cons.mp hs
    rw [lowerChar_of_ascii hc, ih hs]
    rfl
  | finalSigma _ _ =>
    exact absurd (hs 'Σ' List.mem_cons_self) (by decide)

theorem toNat_le_or_toLower_eq (c : Char) : c.toNat ≤ 'Z'.toNat ∨ c.toLower = c := by
  by_cases hupper : c.val ≥ 'A'.val ∧ c.val ≤ 'Z'.val
  · exact .inl hupper.2
  · exact .inr (dif_neg hupper)

/-- No character beyond ASCII is a letter `A` to `Z`. -/
theorem toNat_lt_of_map_toLower {s w : List Char} (h : s.map Char.toLower = w)
    (hw : IsPlainWord w) : ∀ c ∈ s, c.toNat < 0x80 := by
  intro c hc
  have hlower := (hw c.toLower (h ▸ List.mem_map_of_mem hc)).1
  obtain hbound | hsame := toNat_le_or_toLower_eq c
  · exact Nat.lt_of_le_of_lt hbound (by decide)
  · rwa [hsame] at hlower

/-- **A word without `k` is the lower case of its ASCII spellings**, and of nothing else. -/
theorem Lowers.eq_iff {s t w : List Char} (h : Lowers s t) (hw : IsPlainWord w) :
    t = w ↔ s.map Char.toLower = w := by
  constructor
  · rintro rfl
    exact (h.eq_map_toLower (h.toNat_lt hw)).symm
  · intro hmap
    rw [h.eq_map_toLower (toNat_lt_of_map_toLower hmap hw), hmap]

end ImageRecipe.Text
