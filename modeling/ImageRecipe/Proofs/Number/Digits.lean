import ImageRecipe.Number.Digits
import ImageRecipe.Proofs.Text.Lower
import Mathlib.Algebra.Group.Nat.Defs

/-!
# Written numerals read back

`ofDigits?` undoes the ways in which numbers are written: the digits of a number
in any radix up to sixteen, with letters of either case and zeros before them,
of which `decimal` is one case, and `hexDigits`, where a fixed number of digits
keeps the number modulo a power of sixteen.
-/

namespace ImageRecipe.Number

/-! ### Hexadecimal digits -/

/-- The two letters that may stand for ten. -/
def IsHexLetter (letter : Char) : Prop :=
  letter = 'a' ∨ letter = 'A'

theorem digitValue_lower : ∀ d < 16, digitValue (if d < 10 then Char.ofNat ('0'.toNat + d)
    else Char.ofNat ('a'.toNat + d - 10)) = some d := by decide

theorem digitValue_upper : ∀ d < 16, digitValue (if d < 10 then Char.ofNat ('0'.toNat + d)
    else Char.ofNat ('A'.toNat + d - 10)) = some d := by decide

@[simp] theorem length_hexDigits (letter : Char) (w n : Nat) :
    (hexDigits letter w n).length = w := by
  induction w with
  | zero => rfl
  | succ w ih => rw [hexDigits, List.length_cons, ih]

/-- The digits of a number are digits of the radix. -/
theorem exists_of_mem_hexDigits {letter c : Char} {w n : Nat} (h : c ∈ hexDigits letter w n) :
    ∃ d < 16, c = if d < 10 then Char.ofNat ('0'.toNat + d)
      else Char.ofNat (letter.toNat + d - 10) := by
  induction w with
  | zero => simp [hexDigits] at h
  | succ w ih =>
    rw [hexDigits] at h
    rcases List.mem_cons.mp h with rfl | h
    · exact ⟨n / Nat.pow 16 w % 16, Nat.mod_lt _ (by decide), rfl⟩
    · exact ih h

theorem foldDigits_hexDigits {letter : Char} (hl : IsHexLetter letter) (w n : Nat) :
    ∀ k, foldDigits 16 k (hexDigits letter w n) = some (k * 16 ^ w + n % 16 ^ w) := by
  induction w with
  | zero => intro k; simp [hexDigits, foldDigits, Nat.mod_one]
  | succ w ih =>
    intro k
    have hd : n / Nat.pow 16 w % 16 < 16 := Nat.mod_lt _ (by decide)
    have hv : digitValue (if n / Nat.pow 16 w % 16 < 10
        then Char.ofNat ('0'.toNat + n / Nat.pow 16 w % 16)
        else Char.ofNat (letter.toNat + n / Nat.pow 16 w % 16 - 10))
          = some (n / Nat.pow 16 w % 16) := by
      rcases hl with rfl | rfl
      · exact digitValue_lower _ hd
      · exact digitValue_upper _ hd
    simp only [hexDigits, foldDigits, hv, if_pos hd]
    rw [ih, Nat.mod_pow_succ, Nat.pow_succ, Nat.add_mul, Nat.mul_assoc k 16, Nat.mul_comm 16,
      Nat.mul_comm (n / Nat.pow 16 w % 16), Nat.add_assoc, Nat.add_comm (n % 16 ^ w)]
    rfl

/-- **A number that fits into the digits reads back.** -/
theorem ofDigits?_hexDigits {letter : Char} (hl : IsHexLetter letter) {w n : Nat} (hw : w ≠ 0)
    (hn : n < 16 ^ w) : ofDigits? 16 (hexDigits letter w n) = some n := by
  have hne : (hexDigits letter w n).isEmpty = false := by
    rw [List.isEmpty_eq_false_iff, ← List.length_pos_iff, length_hexDigits]
    omega
  rw [ofDigits?, hne, foldDigits_hexDigits hl, Nat.mod_eq_of_lt hn]
  simp

/-! ### Digits of any radix -/

theorem digitValue_digitChar : ∀ d < 16, digitValue (Nat.digitChar d) = some d := by decide

/-- A capital letter has the value of the small one. -/
theorem digitValue_toLower (c : Char) : digitValue c.toLower = digitValue c := by
  obtain hbound | hsame := Text.toNat_le_or_toLower_eq c
  · have hall : ∀ n < 0x80, digitValue (Char.ofNat n).toLower = digitValue (Char.ofNat n) := by
      decide
    have hc := hall c.toNat (Nat.lt_of_le_of_lt hbound (by decide))
    rwa [Char.ofNat_toNat] at hc
  · rw [hsame]

theorem foldDigits_map_toLower (radix : Nat) (s : List Char) :
    ∀ n, foldDigits radix n (s.map Char.toLower) = foldDigits radix n s := by
  induction s with
  | nil => exact fun _ => rfl
  | cons c s ih =>
    intro n
    simp only [List.map_cons, foldDigits, digitValue_toLower, ih]

theorem foldDigits_append (radix : Nat) (s r : List Char) : ∀ n,
    foldDigits radix n (s ++ r) = (foldDigits radix n s).bind fun m => foldDigits radix m r := by
  induction s with
  | nil => exact fun _ => rfl
  | cons c s ih =>
    intro n
    rw [List.cons_append, foldDigits, foldDigits]
    cases digitValue c with
    | none => rfl
    | some d =>
      dsimp only
      split
      · exact ih _
      · rfl

section

variable {radix : Nat}

theorem foldDigits_zeros (hradix : 1 < radix) (k : Nat) :
    foldDigits radix 0 (List.replicate k '0') = some 0 := by
  have hzero : digitValue '0' = some 0 := rfl
  have hpos : 0 < radix := Nat.zero_lt_of_lt hradix
  induction k with
  | zero => rfl
  | succ k ih => simpa only [List.replicate_succ, foldDigits, hzero, hpos, if_true, Nat.zero_mul]

theorem foldDigits_digitChar {d : Nat} (hd : d < radix) (hle : radix ≤ 16) (n : Nat) :
    foldDigits radix n [Nat.digitChar d] = some (n * radix + d) := by
  rw [foldDigits, digitValue_digitChar d (Nat.lt_of_lt_of_le hd hle)]
  exact if_pos hd

/-- The digits of a number are folded up to it again. -/
theorem foldDigits_toDigits (hradix : 1 < radix) (hle : radix ≤ 16) (n : Nat) :
    foldDigits radix 0 (Nat.toDigits radix n) = some n := by
  have hpos : 0 < radix := Nat.zero_lt_of_lt hradix
  induction n using Nat.strongRecOn with
  | ind n ih =>
    by_cases hlt : n < radix
    · rw [Nat.toDigits_of_lt_base hlt, foldDigits_digitChar hlt hle, Nat.zero_mul, Nat.zero_add]
    · have hbase : radix ≤ n := Nat.not_lt.mp hlt
      have hdiv : n / radix < n := Nat.div_lt_self (Nat.lt_of_lt_of_le hpos hbase) hradix
      rw [Nat.toDigits_of_base_le hradix hbase, foldDigits_append, ih _ hdiv, Option.bind_some,
        foldDigits_digitChar (Nat.mod_lt n hpos) hle, Nat.mul_comm, Nat.div_add_mod]

/-- The digits of a number in a radix, with letters of either case and any number of zeros before
them. -/
def DigitsOf (radix n : Nat) (s : List Char) : Prop :=
  ∃ zeros, s.map Char.toLower = List.replicate zeros '0' ++ Nat.toDigits radix n

/-- **The digits of a number read back.** -/
theorem DigitsOf.ofDigits?_eq (hradix : 1 < radix) (hle : radix ≤ 16) {n : Nat} {s : List Char}
    (h : DigitsOf radix n s) : ofDigits? radix s = some n := by
  obtain ⟨zeros, hs⟩ := h
  have hne : s.isEmpty = false := by
    rw [List.isEmpty_eq_false_iff]
    rintro rfl
    exact List.append_ne_nil_of_right_ne_nil _ Nat.toDigits_ne_nil hs.symm
  rw [ofDigits?, hne, ← foldDigits_map_toLower, hs, foldDigits_append, foldDigits_zeros hradix]
  exact foldDigits_toDigits hradix hle n

example : DigitsOf 16 255 "00fF".toList := ⟨2, by decide⟩

end

/-! ### Decimal digits -/

theorem isDigit_of_mem_decimal {n : Nat} {c : Char} (h : c ∈ decimal n) : c.isDigit = true :=
  Nat.isDigit_of_mem_toDigits (by decide) (by decide) h

theorem ne_of_isDigit {c d : Char} (hc : c.isDigit = true) (hd : d.isDigit = false) : c ≠ d := by
  rintro rfl
  rw [hc] at hd
  cases hd

theorem decimal_ne_nil (n : Nat) : decimal n ≠ [] := Nat.toDigits_ne_nil

/-- **A number in decimal reads back.** -/
@[simp] theorem ofDigits?_decimal (n : Nat) : ofDigits? 10 (decimal n) = some n := by
  rw [ofDigits?, List.isEmpty_eq_false_iff.mpr (decimal_ne_nil n)]
  exact foldDigits_toDigits (by decide) (by decide) n

theorem decimal_injective : Function.Injective decimal := by
  intro m n h
  have hmn : ofDigits? 10 (decimal m) = ofDigits? 10 (decimal n) := by rw [h]
  simpa using hmn

/-- Only zero starts with a zero. -/
theorem head_decimal {n : Nat} (hn : n ≠ 0) : (decimal n).head? ≠ some '0' := by
  induction n using Nat.strongRecOn with
  | ind n ih =>
    by_cases hlt : n < 10
    · have hdigit : ∀ d < 10, d ≠ 0 → Nat.digitChar d ≠ '0' := by decide
      rw [decimal, Nat.toDigits_of_lt_base hlt]
      simpa using hdigit n hlt hn
    · have hsplit : decimal n = decimal (n / 10) ++ [Nat.digitChar (n % 10)] :=
        Nat.toDigits_of_base_le (by decide) (Nat.not_lt.mp hlt)
      have hhead := ih (n / 10) (Nat.div_lt_self (Nat.pos_of_ne_zero hn) (by decide)) (by omega)
      obtain ⟨c, r, hr⟩ := List.exists_cons_of_ne_nil (decimal_ne_nil (n / 10))
      rw [hr] at hhead
      rw [hsplit, hr]
      exact hhead

end ImageRecipe.Number
