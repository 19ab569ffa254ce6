import ImageRecipe.Proofs.Number.Binary64
import ImageRecipe.Proofs.Number.Digits
import ImageRecipe.Proofs.Yaml.Cursor
import ImageRecipe.Yaml.Resolve
import Mathlib.Data.List.TakeWhile
import Mathlib.Tactic.SplitIfs

/-!
# The spellings of nulls, booleans and numbers

`resolve` tries one reader after the other.  What they accept is laid down here
as a grammar: `Magnitude` for whole numbers and `Numeral` for decimal numerals,
with the number that is spelled, so that the greatest number that counts can be
told from the spelling.  `SpellsValue` collects them, and
`resolve_eq_text_iff` says that a word is a text if it has none of these
spellings.
-/

namespace ImageRecipe.Yaml

open Number

/-! ### Digits -/

theorem foldDigits_ne_none_iff {radix n : Nat} {s : List Char} :
    foldDigits radix n s ≠ none ↔ ∀ c ∈ s, ∃ d < radix, digitValue c = some d := by
  induction s generalizing n with
  | nil => simp [foldDigits]
  | cons c s ih =>
    rw [foldDigits, List.forall_mem_cons]
    cases hc : digitValue c with
    | none => simp
    | some d =>
      by_cases hd : d < radix
      · simp [hd, ih]
      · simp [hd]

theorem digitValue_of_ofDigits? {radix n : Nat} {s : List Char} (h : ofDigits? radix s = some n) :
    s ≠ [] ∧ ∀ c ∈ s, ∃ d < radix, digitValue c = some d := by
  rw [ofDigits?] at h
  split at h
  · cases h
  · next hs => exact ⟨by simpa using hs, foldDigits_ne_none_iff.mp (by rw [h]; simp)⟩

/-! ### Whole numbers -/

/-- A whole number without a sign, in one of four radices, and its value. -/
inductive Magnitude : List Char → Nat → Prop
  | hexadecimal {r : List Char} {n : Nat} (h : ofDigits? 16 r = some n) :
      Magnitude ('0' :: 'x' :: r) n
  | octal {r : List Char} {n : Nat} (h : ofDigits? 8 r = some n) : Magnitude ('0' :: 'o' :: r) n
  | binary {r : List Char} {n : Nat} (h : ofDigits? 2 r = some n) : Magnitude ('0' :: 'b' :: r) n
  | decimal {s : List Char} {n : Nat} (hs : paddedDigits s = false) (h : ofDigits? 10 s = some n) :
      Magnitude s n

theorem magnitude?_eq_some_iff {s : List Char} {n : Nat} :
    magnitude? (paddedDigits s) s = some n ↔ Magnitude s n := by
  -- no letter of a radix is a decimal digit
  have hletter {c : Char} (hc : ∀ d < 10, digitValue c ≠ some d) {r : List Char} :
      ofDigits? 10 ('0' :: c :: r) ≠ some n := by
    intro h
    obtain ⟨d, hd, hval⟩ := (digitValue_of_ofDigits? h).2 c (by simp)
    exact hc d hd hval
  constructor
  · intro h
    unfold magnitude? at h
    split at h
    · exact .hexadecimal h
    · exact .octal h
    · exact .binary h
    · cases hs : paddedDigits s with
      | true => simp [hs] at h
      | false => exact .decimal hs (by simpa [hs] using h)
  · intro h
    cases h with
    | hexadecimal h | octal h | binary h => exact h
    | decimal hs h =>
      unfold magnitude?
      split
      · exact absurd h (hletter (by decide))
      · exact absurd h (hletter (by decide))
      · exact absurd h (hletter (by decide))
      · simpa [hs] using h

/-! ### Decimal numerals -/

/-- A point with the digits behind it, or nothing: what is written, and the digits. -/
inductive Fraction : List Char → List Char → Prop
  | absent : Fraction [] []
  | point {f : List Char} (hf : ∀ c ∈ f, c.isDigit = true) : Fraction ('.' :: f) f

/-- An exponent, or nothing: what is written, and the value. -/
inductive Exponent : List Char → Int → Prop
  | absent : Exponent [] 0
  | unsigned {c : Char} {r : List Char} {n : Nat} (hc : c = 'e' ∨ c = 'E')
      (hr : ofDigits? 10 r = some n) : Exponent (c :: r) n
  | plus {c : Char} {r : List Char} {n : Nat} (hc : c = 'e' ∨ c = 'E')
      (hr : ofDigits? 10 r = some n) : Exponent (c :: '+' :: r) n
  | minus {c : Char} {r : List Char} {n : Nat} (hc : c = 'e' ∨ c = 'E')
      (hr : ofDigits? 10 r = some n) : Exponent (c :: '-' :: r) (-n)

/-- A decimal numeral without a sign: what is written, the number that all its digits spell, and
the power of ten by which that number is multiplied. -/
inductive Numeral : List Char → Nat → Int → Prop
  | mk {whole point fraction exponent : List Char} {n : Nat} {e : Int}
      (hwhole : ∀ c ∈ whole, c.isDigit = true) (hfraction : Fraction point fraction)
      (hexponent : Exponent exponent e) (hdigits : ofDigits? 10 (whole ++ fraction) = some n) :
      Numeral (whole ++ (point ++ exponent)) n (e - fraction.length)

def exponent? : List Char → Option Int
  | [] => some 0
  | c :: r =>
    if c == 'e' || c == 'E' then
      (ofDigits? 10 (unsigned r)).map fun (n : Nat) =>
        if r.head? == some '-' then -(n : Int) else (n : Int)
    else none

theorem exponent?_eq_some_iff {x : List Char} {e : Int} : exponent? x = some e ↔ Exponent x e := by
  have hdigit {s : List Char} {n : Nat} (h : ofDigits? 10 s = some n) :
      unsigned s = s ∧ s.head? ≠ some '-' := by
    obtain ⟨hne, hs⟩ := digitValue_of_ofDigits? h
    obtain ⟨c, r, rfl⟩ := List.exists_cons_of_ne_nil hne
    obtain ⟨d, -, hc⟩ := hs c List.mem_cons_self
    have hplus : c ≠ '+' := by
      rintro rfl
      cases hc
    have hminus : c ≠ '-' := by
      rintro rfl
      cases hc
    refine ⟨?_, by simpa using hminus⟩
    unfold unsigned
    split
    · next h => exact absurd (List.cons.inj h).1 hplus
    · next h => exact absurd (List.cons.inj h).1 hminus
    · rfl
  constructor
  · intro h
    match x with
    | [] =>
      cases h
      exact .absent
    | c :: r =>
      rw [exponent?] at h
      split at h
      · next hc =>
        have hc' : c = 'e' ∨ c = 'E' := by simpa using hc
        obtain ⟨n, hn, rfl⟩ := Option.map_eq_some_iff.mp h
        unfold unsigned at hn
        split at hn
        · exact .plus hc' hn
        · exact .minus hc' hn
        · next hminus =>
          have hhead := (hdigit hn).2
          rw [if_neg (by simpa using hhead)]
          exact .unsigned hc' hn
      · cases h
  · intro h
    have hmark {c : Char} (hc : c = 'e' ∨ c = 'E') : (c == 'e' || c == 'E') = true := by
      simpa using hc
    cases h with
    | absent => rfl
    | unsigned hc hr =>
      obtain ⟨hunsigned, hhead⟩ := hdigit hr
      simp [exponent?, hmark hc, hunsigned, hhead, hr]
    | plus hc hr => simp [exponent?, hmark hc, Yaml.unsigned, hr]
    | minus hc hr => simp [exponent?, hmark hc, Yaml.unsigned, hr]

/-- An exponent starts with neither a digit nor a point. -/
theorem Exponent.head {x : List Char} {e : Int} (h : Exponent x e) :
    ∀ c ∈ x.head?, c.isDigit = false ∧ c ≠ '.' := by
  have hmark {c : Char} (hc : c = 'e' ∨ c = 'E') : c.isDigit = false ∧ c ≠ '.' := by
    rcases hc with rfl | rfl <;> decide
  cases h with
  | absent => simp
  | unsigned hc _ | plus hc _ | minus hc _ => simpa using hmark hc

theorem dropWhile_append_stop {p : Char → Bool} {s r : List Char} (hs : ∀ c ∈ s, p c = true)
    (hr : ∀ c ∈ r.head?, p c = false) : (s ++ r).dropWhile p = r := by
  rw [List.dropWhile_append_of_pos hs]
  cases r with
  | nil => rfl
  | cons c r => rw [List.dropWhile_cons_of_neg (by simp [hr c rfl])]

def splitFraction (r : List Char) : List Char × List Char :=
  match r with
  | '.' :: r => (r.takeWhile Char.isDigit, r.dropWhile Char.isDigit)
  | _ => ([], r)

theorem exists_fraction (r : List Char) :
    ∃ p, r = p ++ (splitFraction r).2 ∧ Fraction p (splitFraction r).1 := by
  unfold splitFraction
  split
  · next r =>
    refine ⟨'.' :: r.takeWhile Char.isDigit, ?_, .point fun c hc => List.mem_takeWhile_imp hc⟩
    rw [List.cons_append, List.takeWhile_append_dropWhile]
  · exact ⟨[], rfl, .absent⟩

theorem splitFraction_append {p f x : List Char} {e : Int} (hp : Fraction p f)
    (hx : Exponent x e) : splitFraction (p ++ x) = (f, x) := by
  cases hp with
  | absent =>
    unfold splitFraction
    split
    · next h =>
      rw [List.nil_append] at h
      exact absurd rfl (hx.head '.' (by rw [h]; rfl)).2
    · rfl
  | point hf =>
    have hstop : ∀ c ∈ x.head?, c.isDigit = false := fun c hc => (hx.head c hc).1
    rw [List.cons_append, splitFraction, takeWhile_append_stop hf hstop,
      dropWhile_append_stop hf hstop]

theorem numeralParts_eq (s : List Char) : numeralParts s =
    let r := splitFraction (s.dropWhile Char.isDigit)
    if (s.takeWhile Char.isDigit).isEmpty && r.1.isEmpty then none
    else (exponent? r.2).map fun e => (s.takeWhile Char.isDigit, r.1, e) := by
  have hexponent (w f x : List Char) : (match x with
      | [] => some (w, f, (0 : Int))
      | c :: r =>
        if c == 'e' || c == 'E' then
          (ofDigits? 10 (unsigned r)).map fun n =>
            (w, f, if r.head? == some '-' then -(n : Int) else n)
        else none) = (exponent? x).map fun e => (w, f, e) := by
    unfold exponent?
    cases x with
    | nil => rfl
    | cons c r =>
      dsimp only
      split
      · cases ofDigits? 10 (unsigned r) <;> rfl
      · rfl
  exact if_congr Iff.rfl rfl (hexponent (s.takeWhile Char.isDigit)
    (splitFraction (s.dropWhile Char.isDigit)).1 (splitFraction (s.dropWhile Char.isDigit)).2)

theorem numeralParts_eq_some_iff {s whole fraction : List Char} {e : Int} :
    numeralParts s = some (whole, fraction, e) ↔ ∃ p x, s = whole ++ (p ++ x) ∧
      (∀ c ∈ whole, c.isDigit = true) ∧ Fraction p fraction ∧ Exponent x e ∧
        whole ++ fraction ≠ [] := by
  rw [numeralParts_eq]
  constructor
  · intro h
    obtain ⟨p, hsplit, hp⟩ := exists_fraction (s.dropWhile Char.isDigit)
    dsimp only at h
    split at h
    · cases h
    · next hne =>
      obtain ⟨e', hx, heq⟩ := Option.map_eq_some_iff.mp h
      cases heq
      refine ⟨p, _, ?_, fun c hc => List.mem_takeWhile_imp hc, hp, exponent?_eq_some_iff.mp hx, ?_⟩
      · rw [← hsplit, List.takeWhile_append_dropWhile]
      · simpa [List.append_eq_nil_iff] using hne
  · rintro ⟨p, x, rfl, hw, hp, hx, hne⟩
    have hstop : ∀ c ∈ (p ++ x).head?, c.isDigit = false := by
      cases hp with
      | absent => exact fun c hc => (hx.head c hc).1
      | point _ => simp
    have hne' : (whole.isEmpty && fraction.isEmpty) = false := by
      rw [Bool.eq_false_iff]
      simpa [List.append_eq_nil_iff] using hne
    simp only [takeWhile_append_stop hw hstop, dropWhile_append_stop hw hstop,
      splitFraction_append hp hx, hne', exponent?_eq_some_iff.mpr hx]
    rfl

/-- **A numeral is read if its value is in the range of doubles.** -/
theorem readDecimal_isSome_iff {s : List Char} :
    (readDecimal s).isSome ↔ ∃ n k, Numeral s n k ∧ InRange n k := by
  have hread : (readDecimal s).isSome ↔ ∃ whole fraction e n,
      numeralParts s = some (whole, fraction, e) ∧
        foldDigits 10 0 (whole ++ fraction) = some n ∧ InRange n (e - fraction.length) := by
    simp only [← ofDecimal?_isSome_iff, readDecimal, Option.isSome_iff_exists, bind,
      Option.bind_eq_some_iff, Prod.exists]
    constructor
    · rintro ⟨x, w, f, e, hparts, n, hn, hx⟩
      exact ⟨w, f, e, n, hparts, hn, x, hx⟩
    · rintro ⟨w, f, e, n, hparts, hn, x, hx⟩
      exact ⟨x, w, f, e, hparts, n, hn, hx⟩
  have hdigits {s : List Char} (hs : s ≠ []) : ofDigits? 10 s = foldDigits 10 0 s := by
    rw [ofDigits?, List.isEmpty_eq_false_iff.mpr hs]
    rfl
  rw [hread]
  constructor
  · rintro ⟨w, f, e, n, hparts, hn, hrange⟩
    obtain ⟨p, x, rfl, hw, hp, hx, hne⟩ := numeralParts_eq_some_iff.mp hparts
    exact ⟨n, _, .mk hw hp hx ((hdigits hne).trans hn), hrange⟩
  · rintro ⟨n, k, hs, hrange⟩
    cases hs with
    | @mk w p f x n e hw hp hx hn =>
      have hne := (digitValue_of_ofDigits? hn).1
      exact ⟨w, f, e, n, numeralParts_eq_some_iff.mpr ⟨p, x, rfl, hw, hp, hx, hne⟩,
        (hdigits hne).symm.trans hn, hrange⟩

/-! ### All spellings -/

/-- A scalar that starts with a letter or a digit has one of these spellings if it is no text.  A
whole number has at most 128 bits, and what consists of digits after a leading zero is none. -/
inductive SpellsValue (s : List Char) : Prop
  | null (h : s ∈ ["null".toList, "Null".toList, "NULL".toList])
  | bool (h : s ∈ ["true".toList, "True".toList, "TRUE".toList, "false".toList, "False".toList,
      "FALSE".toList])
  | int {n : Nat} (h : Magnitude s n) (hn : n < 2 ^ 128)
  | float {n : Nat} {k : Int} (hs : paddedDigits s = false) (h : Numeral s n k)
      (hn : InRange n k)

section

variable {c : Char} {r : List Char}

theorem ne_of_isAlphanum (hc : c.isAlphanum = true) :
    c ≠ '+' ∧ c ≠ '-' ∧ c ≠ '.' ∧ c ≠ '~' :=
  ⟨ne_of_class hc (by decide), ne_of_class hc (by decide), ne_of_class hc (by decide),
    ne_of_class hc (by decide)⟩

theorem isNull_iff (hc : c.isAlphanum = true) :
    isNull (c :: r) = true ↔ c :: r ∈ ["null".toList, "Null".toList, "NULL".toList] := by
  have htilde := (ne_of_isAlphanum hc).2.2.2
  simp [isNull, htilde]

theorem readBool_eq_none_iff {s : List Char} : readBool s = none ↔
    s ∉ ["true".toList, "True".toList, "TRUE".toList, "false".toList, "False".toList,
      "FALSE".toList] := by
  have hmem : s ∈ ["true".toList, "True".toList, "TRUE".toList, "false".toList, "False".toList,
      "FALSE".toList] ↔ s ∈ ["true".toList, "True".toList, "TRUE".toList] ∨
        s ∈ ["false".toList, "False".toList, "FALSE".toList] := by
    rw [← List.mem_append]
    rfl
  simp only [readBool, hmem, List.contains_eq_mem, decide_eq_true_eq, not_or]
  split_ifs with htrue hfalse
  · exact ⟨nofun, fun h => absurd htrue h.1⟩
  · exact ⟨nofun, fun h => absurd hfalse h.2⟩
  · exact ⟨fun _ => ⟨htrue, hfalse⟩, fun _ => rfl⟩

theorem readInt_eq_none_iff (hc : c.isAlphanum = true) :
    readInt (c :: r) = none ↔ ∀ n, Magnitude (c :: r) n → 2 ^ 128 ≤ n := by
  obtain ⟨hplus, hminus, -, -⟩ := ne_of_isAlphanum hc
  have hread : readInt (c :: r) = (magnitude? (paddedDigits (c :: r)) (c :: r)).bind fun n =>
      if n < bits 128 then some (n : Int) else none := by
    unfold readInt readNat
    split
    · next h => exact absurd (List.cons.inj h).1 hminus
    · split
      · next h => exact absurd (List.cons.inj h).1 hplus
      · rfl
  rw [hread, Option.bind_eq_none_iff]
  refine forall_congr' fun n => ?_
  rw [magnitude?_eq_some_iff, bits_eq]
  refine imp_congr Iff.rfl ?_
  split_ifs with hn
  · simpa using hn
  · simpa using hn

theorem readFloat_eq_none_iff (hc : c.isAlphanum = true) :
    readFloat (c :: r) = none ↔ ∀ n k, Numeral (c :: r) n k → ¬InRange n k := by
  obtain ⟨hplus, hminus, hpoint, -⟩ := ne_of_isAlphanum hc
  have hread : readFloat (c :: r) = (readDecimal (c :: r)).map fun x =>
      .finite ((c :: r).head? == some '-') x.shortest := by
    have hunsigned : unsigned (c :: r) = c :: r := by
      unfold unsigned
      split
      · next h => exact absurd (List.cons.inj h).1 hplus
      · next h => exact absurd (List.cons.inj h).1 hminus
      · rfl
    simp [readFloat, hunsigned, hplus, hminus, hpoint]
  rw [hread, Option.map_eq_none_iff, ← Option.not_isSome_iff_eq_none, readDecimal_isSome_iff]
  simp only [not_exists, not_and]

/-- **A word is a text if it spells nothing else.** -/
theorem resolve_eq_text_iff (hc : c.isAlphanum = true) :
    resolve (c :: r) = .text ↔ ¬SpellsValue (c :: r) := by
  have hreaders : resolve (c :: r) = .text ↔ isNull (c :: r) = false ∧ readBool (c :: r) = none ∧
      readInt (c :: r) = none ∧ (paddedDigits (c :: r) = false → readFloat (c :: r) = none) := by
    unfold resolve
    cases isNull (c :: r) <;> cases readBool (c :: r) <;> cases readInt (c :: r) <;>
      cases paddedDigits (c :: r) <;> cases readFloat (c :: r) <;> simp
  rw [hreaders, ← Bool.not_eq_true, isNull_iff hc, readBool_eq_none_iff, readInt_eq_none_iff hc,
    readFloat_eq_none_iff hc]
  constructor
  · rintro ⟨hnull, hbool, hint, hfloat⟩ h
    cases h with
    | null h => exact hnull h
    | bool h => exact hbool h
    | int h hn => exact Nat.not_lt.mpr (hint _ h) hn
    | float hs h hn => exact hfloat hs _ _ h hn
  · intro h
    refine ⟨fun hs => h (.null hs), fun hs => h (.bool hs), fun n hn => ?_, fun hs n k hn hr => ?_⟩
    · exact Nat.not_lt.mp fun hlt => h (.int hn hlt)
    · exact h (.float hs hn hr)

end

end ImageRecipe.Yaml
