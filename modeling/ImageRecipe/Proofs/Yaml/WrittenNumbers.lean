import ImageRecipe.Proofs.Decode.Reading
import ImageRecipe.Proofs.Yaml.PlainWords
import ImageRecipe.Proofs.Yaml.Spellings

/-!
# Numbers as they are written

A whole number is written in decimal, or, unless it is negative, in the digits
of another radix behind a prefix.  `Written` says so without a word on reading.
Whatever its size, a written number is a word that needs no quotes, and
`Written.readNat_eq_some_iff` says that the natural number which it spells is the
number that was written; a negative one spells none.
-/

namespace ImageRecipe.Yaml

open Number

def radixLetters : List (Char × Nat) :=
  [('x', 16), ('o', 8), ('b', 2)]

/-- The ways to write a whole number: in decimal without a zero too many, or behind the prefix of
a radix, in digits of that radix. -/
inductive Written : Int → List Char → Prop
  | decimal (n : Int) : Written n (signedDecimal n)
  | prefixed {letter : Char} {radix n : Nat} {s : List Char}
      (hradix : (letter, radix) ∈ radixLetters) (h : DigitsOf radix n s) :
      Written n ('0' :: letter :: s)

theorem radix_of_mem {letter : Char} {radix : Nat} (h : (letter, radix) ∈ radixLetters) :
    1 < radix ∧ radix ≤ 16 := by
  have hall : ∀ x ∈ radixLetters, 1 < x.2 ∧ x.2 ≤ 16 := by decide
  exact hall _ h

/-! ### Words -/

theorem isAlphanum_of_digitValue {c : Char} {d : Nat} (h : digitValue c = some d) :
    c.isAlphanum = true := by
  rw [isAlphanum_iff]
  unfold digitValue at h
  split at h
  · next hc => exact .inr (.inr hc)
  · split at h
    · next hc => exact .inr (.inl hc)
    · split at h
      · next hc => exact .inl hc
      · cases h

/-- Digits behind the prefix of a radix are a word. -/
theorem plainWord_prefixed {letter : Char} {radix n : Nat} {s : List Char}
    (hradix : (letter, radix) ∈ radixLetters) (h : DigitsOf radix n s) :
    PlainWord ('0' :: letter :: s) where
  chars := by
    have hletters : ∀ x ∈ radixLetters, isWordChar x.1 = true := by decide
    have hletter : isWordChar letter = true := hletters (letter, radix) hradix
    obtain ⟨hlt, hle⟩ := radix_of_mem hradix
    obtain ⟨-, hdigits⟩ := digitValue_of_ofDigits? (h.ofDigits?_eq hlt hle)
    refine List.forall_mem_cons.mpr
      ⟨by decide, List.forall_mem_cons.mpr ⟨hletter, fun c hc => ?_⟩⟩
    obtain ⟨d, -, hd⟩ := hdigits c hc
    exact isWordChar_iff.mpr (.inl (isKeyChar_of_isAlphanum (isAlphanum_of_digitValue hd)))
  start := ⟨'0', rfl, rfl⟩

/-- A minus sign before a number is taken for nothing else. -/
theorem fitsPlain_minus_decimal (n : Nat) : fitsPlain ('-' :: decimal n) = true := by
  have hword := plainWord_decimal n
  obtain ⟨c, r, hr, hc⟩ := hword.exists_cons
  have hdash : c ≠ '-' := ne_of_class hc (by decide)
  have hkey := isKeyChar_of_isAlphanum hc
  refine fitsPlain_of_isWordChar (List.forall_mem_cons.mpr ⟨by decide, hword.chars⟩) ?_
  rw [hr]
  simp [startsIndicator, endsWord, isIndicator, hdash, isSpace_of_isKeyChar hkey,
    isBreak_of_isKeyChar hkey]

/-- **A written number needs no quotes.** -/
theorem Written.unquoted {n : Int} {s : List Char} (h : Written n s) : Unquoted s := by
  cases h with
  | decimal n =>
    cases n with
    | ofNat n => exact (plainWord_decimal n).unquoted
    | negSucc n =>
      have hspace : ' ' ∉ Number.decimal (n + 1) := (plainWord_decimal _).notMem (by decide)
      exact ⟨fitsPlain_minus_decimal (n + 1), by simpa [signedDecimal] using hspace⟩
  | prefixed hradix h => exact (plainWord_prefixed hradix h).unquoted

theorem Written.exists_cons {n : Int} {s : List Char} (h : Written n s) :
    ∃ c r, s = c :: r ∧ (c.isDigit = true ∨ c = '-') := by
  cases h with
  | decimal n =>
    cases n with
    | ofNat n =>
      obtain ⟨c, r, hr⟩ := List.exists_cons_of_ne_nil (decimal_ne_nil n)
      exact ⟨c, r, hr, .inl (isDigit_of_mem_decimal (hr ▸ List.mem_cons_self))⟩
    | negSucc n => exact ⟨'-', _, rfl, .inr rfl⟩
  | prefixed _ _ => exact ⟨'0', _, rfl, .inl rfl⟩

/-- Nor is it taken for something left out. -/
theorem Written.isPresent {n : Int} {t : String} (h : Written n t.toList) :
    Decode.Reading.IsPresent (plainNode t) := by
  obtain ⟨c, r, hr, hdigit | rfl⟩ := h.exists_cons
  · exact Decode.Reading.isPresent_plain hr (Decode.Reading.notMem_nullStarts_of_isDigit hdigit)
  · exact Decode.Reading.isPresent_plain hr (by simp)

/-! ### Values -/

/-- **A written number is read as it is.**  What has a minus sign is no natural number. -/
theorem Written.readNat_eq_some_iff {n : Int} {s : List Char} (h : Written n s) {k : Nat} :
    readNat s = some k ↔ (k : Int) = n := by
  have hsome (m : Nat) : some m = some k ↔ (k : Int) = m := by
    rw [Option.some.injEq, Int.natCast_inj, eq_comm]
  cases h with
  | decimal n =>
    cases n with
    | ofNat n =>
      rw [signedDecimal, Decode.Reading.readNat_decimal]
      exact hsome n
    | negSucc n =>
      have hnone : readNat ('-' :: Number.decimal (n + 1)) = none := by
        simp [readNat, magnitude?, ofDigits?, foldDigits, digitValue]
      rw [signedDecimal, hnone]
      exact iff_of_false (Option.some_ne_none k).symm (by omega)
  | @prefixed letter radix n s hradix h =>
    obtain ⟨hlt, hle⟩ := radix_of_mem hradix
    have hread : readNat ('0' :: letter :: s) = ofDigits? radix s := by
      simp only [radixLetters, List.mem_cons, Prod.mk.injEq, List.not_mem_nil, or_false] at hradix
      rcases hradix with ⟨rfl, rfl⟩ | ⟨rfl, rfl⟩ | ⟨rfl, rfl⟩ <;> rfl
    rw [hread, h.ofDigits?_eq hlt hle]
    exact hsome n

end ImageRecipe.Yaml
