import ImageRecipe.Number.Binary64
import Mathlib.Algebra.Group.Nat.Defs
import Mathlib.Tactic.SplitIfs

/-!
# Which numerals are too great for a double

A decimal numeral denotes no double when the nearest one would be beyond the
greatest.  `ofDecimal?_isSome_iff` says where that begins: half a unit in the
last place above the greatest double, where a half is rounded up already.  The
exponent that `nearest?` settles on is one at which the quotient has 53 bits,
and so only the greatest exponent of all needs a closer look.
-/

namespace ImageRecipe.Number

/-- Half a unit in the last place above the greatest double. -/
def overflow : Nat :=
  (2 ^ 54 - 1) * bits 970

/-- The number `n * 10 ^ e` is below `overflow`, and so some double is near enough to it. -/
def InRange (n : Nat) (e : Int) : Prop :=
  n * 10 ^ e.toNat < overflow * 10 ^ (-e).toNat

instance (n : Nat) (e : Int) : Decidable (InRange n e) :=
  inferInstanceAs (Decidable (_ < _))

theorem bits_eq (width : Nat) : bits width = 2 ^ width := rfl

theorem bits_pos (width : Nat) : 0 < bits width := Nat.two_pow_pos width

theorem pow_le_bits {k width : Nat} (h : k ≤ width) : 2 ^ k ≤ bits width :=
  Nat.pow_le_pow_right Nat.two_pos h

theorem two_mul_bits {width k : Nat} (h : k = width + 1) : 2 * bits width = 2 ^ k := by
  rw [h, bits_eq, Nat.pow_succ, Nat.mul_comm]

theorem four_mul_bits_le {width k : Nat} (h : width + 2 ≤ k) : 4 * bits width ≤ 2 ^ k := by
  have hpow : 4 * 2 ^ width = 2 ^ (width + 2) := by rw [Nat.pow_add, Nat.mul_comm]
  rw [bits_eq, hpow]
  exact Nat.pow_le_pow_right Nat.two_pos h

/-! ### Rounding -/

/-- A quotient below an even number is rounded up to it from half a unit below it on. -/
theorem roundDiv_eq_iff {k a b : Nat} (hb : 0 < b) (hk : k % 2 = 0) (ha : a < k * b) :
    roundDiv a b = k ↔ (2 * k - 1) * b ≤ 2 * a := by
  have hdiv : a / b < k := (Nat.div_lt_iff_lt_mul hb).mpr ha
  have hmod : a % b < b := Nat.mod_lt a hb
  have hsplit : b * (a / b) + a % b = a := Nat.div_add_mod a b
  simp only [roundDiv]
  generalize a / b = d at *
  generalize a % b = r at *
  by_cases hlast : d = k - 1
  · -- only the last unit below `k` can be rounded up to it, and it is odd
    have hodd : d % 2 ≠ 0 := by omega
    have hline : (2 * k - 1) * b = 2 * (b * d) + b := by
      have hk' : 2 * k - 1 = 2 * d + 1 := by omega
      rw [hk', Nat.add_mul, Nat.one_mul, Nat.mul_assoc, Nat.mul_comm d]
    rw [hline, if_neg hodd]
    split_ifs <;> omega
  · have hbelow : (if 2 * r < b then d else if b < 2 * r then d + 1
        else if d % 2 = 0 then d else d + 1) ≠ k := by
      split_ifs <;> omega
    have hline : 2 * a < (2 * k - 1) * b := by
      have hle : (d + 2) * b ≤ k * b := Nat.mul_le_mul_right b (by omega)
      rw [Nat.add_mul, Nat.mul_comm d] at hle
      rw [Nat.sub_mul, Nat.one_mul, Nat.mul_assoc]
      omega
    exact ⟨fun h => absurd h hbelow, fun h => absurd hline (Nat.not_lt.mpr h)⟩

theorem scaled_eq (a b : Nat) (q : Int) :
    scaled a b q = (a * 2 ^ (-q).toNat, b * 2 ^ q.toNat) := by
  unfold scaled
  split
  · next h =>
    have hq : (-q).toNat = 0 := by omega
    rw [hq, Nat.pow_zero, Nat.mul_one]
    rfl
  · next h =>
    have hq : q.toNat = 0 := by omega
    rw [hq, Nat.pow_zero, Nat.mul_one]
    rfl

/-- One more in the exponent halves the fraction. -/
theorem scaled_succ (a b : Nat) (q : Int) :
    (a * 2 ^ (-(q + 1)).toNat = a * 2 ^ (-q).toNat ∧
        b * 2 ^ (q + 1).toNat = 2 * (b * 2 ^ q.toNat)) ∨
      (a * 2 ^ (-q).toNat = 2 * (a * 2 ^ (-(q + 1)).toNat) ∧
        b * 2 ^ (q + 1).toNat = b * 2 ^ q.toNat) := by
  by_cases h : 0 ≤ q
  · have hneg : (-(q + 1)).toNat = (-q).toNat := by omega
    have hpos : (q + 1).toNat = q.toNat + 1 := by omega
    exact .inl ⟨by rw [hneg], by rw [hpos, Nat.pow_succ]; ac_rfl⟩
  · have hneg : (-q).toNat = (-(q + 1)).toNat + 1 := by omega
    have hpos : (q + 1).toNat = q.toNat := by omega
    exact .inr ⟨by rw [hneg, Nat.pow_succ]; ac_rfl, by rw [hpos]⟩

/-- The first guess of the exponent leaves the quotient with 53 bits or 54, unless it is the least
exponent. -/
theorem scaled_bounds {a b : Nat} (ha : a ≠ 0) (hb : b ≠ 0) {q : Int}
    (hq : q = max minExponent ((a.log2 : Int) - b.log2 - 53)) :
    a * 2 ^ (-q).toNat < 2 ^ 54 * (b * 2 ^ q.toNat) ∧
      (minExponent < q → 2 ^ 52 * (b * 2 ^ q.toNat) ≤ a * 2 ^ (-q).toNat) := by
  constructor
  · calc a * 2 ^ (-q).toNat
        < 2 ^ (a.log2 + 1) * 2 ^ (-q).toNat :=
          Nat.mul_lt_mul_of_pos_right Nat.lt_log2_self (Nat.two_pow_pos _)
      _ = 2 ^ (a.log2 + 1 + (-q).toNat) := (Nat.pow_add 2 _ _).symm
      _ ≤ 2 ^ (54 + (b.log2 + q.toNat)) := Nat.pow_le_pow_right Nat.two_pos (by omega)
      _ = 2 ^ 54 * (2 ^ b.log2 * 2 ^ q.toNat) := by rw [← Nat.pow_add, ← Nat.pow_add]
      _ ≤ 2 ^ 54 * (b * 2 ^ q.toNat) :=
          Nat.mul_le_mul_left _ (Nat.mul_le_mul_right _ (Nat.log2_self_le hb))
  · intro hmin
    calc 2 ^ 52 * (b * 2 ^ q.toNat)
        ≤ 2 ^ 52 * (2 ^ (b.log2 + 1) * 2 ^ q.toNat) :=
          Nat.mul_le_mul_left _ (Nat.mul_le_mul_right _ (Nat.le_of_lt Nat.lt_log2_self))
      _ = 2 ^ (52 + (b.log2 + 1 + q.toNat)) := by rw [← Nat.pow_add, ← Nat.pow_add]
      _ = 2 ^ (a.log2 + (-q).toNat) := congrArg (2 ^ ·) (by omega)
      _ = 2 ^ a.log2 * 2 ^ (-q).toNat := Nat.pow_add 2 _ _
      _ ≤ a * 2 ^ (-q).toNat := Nat.mul_le_mul_right _ (Nat.log2_self_le ha)

/-- What is left to see once the exponent is settled. -/
theorem exists_exponent {a b : Nat} (ha : a ≠ 0) (hb : b ≠ 0) : ∃ q : Int,
    ((nearest? a b).isSome ↔
      q < 971 ∨ (q = 971 ∧ roundDiv (a * 2 ^ (-q).toNat) (b * 2 ^ q.toNat) ≠ 2 ^ 53)) ∧
    a * 2 ^ (-q).toNat < 2 ^ 53 * (b * 2 ^ q.toNat) ∧
    (minExponent < q → 2 ^ 52 * (b * 2 ^ q.toNat) ≤ a * 2 ^ (-q).toNat) := by
  generalize hq₀ : max minExponent ((a.log2 : Int) - b.log2 - 53) = q₀
  obtain ⟨hupper, hlower⟩ := scaled_bounds ha hb hq₀.symm
  have hpos : 0 < b * 2 ^ q₀.toNat := Nat.mul_pos (Nat.pos_of_ne_zero hb) (Nat.two_pow_pos _)
  have hmin : minExponent ≤ q₀ := by omega
  generalize hq : (if 2 ^ 53 ≤ a * 2 ^ (-q₀).toNat / (b * 2 ^ q₀.toNat) then q₀ + 1 else q₀) = q
  refine ⟨q, ?_, ?_⟩
  · have hbits : bits 53 = 2 ^ 53 := rfl
    have hmax : maxExponent = 971 := rfl
    simp only [nearest?, if_neg ha, hq₀, scaled_eq, hbits, hq, hmax]
    by_cases hm : roundDiv (a * 2 ^ (-q).toNat) (b * 2 ^ q.toNat) = 2 ^ 53
    · simp only [if_pos hm]
      split_ifs <;> simp <;> omega
    · simp only [if_neg hm]
      split_ifs <;> simp <;> omega
  · split at hq
    · next h =>
      obtain rfl := hq
      rw [Nat.le_div_iff_mul_le hpos] at h
      rcases scaled_succ a b q₀ with ⟨hA, hB⟩ | ⟨hA, hB⟩ <;>
      · rw [hB]
        omega
    · next h =>
      obtain rfl := hq
      rw [Nat.le_div_iff_mul_le hpos] at h
      exact ⟨Nat.not_le.mp h, hlower⟩

theorem overflow_mul (b : Nat) : overflow * b = (2 ^ 54 - 1) * (b * bits 970) := by
  rw [overflow, Nat.mul_assoc, Nat.mul_comm b]

/-- **A fraction is too great for a double from `overflow` on.** -/
theorem nearest?_isSome_iff (a : Nat) {b : Nat} (hb : b ≠ 0) :
    (nearest? a b).isSome ↔ a < overflow * b := by
  have hunit : 0 < b * bits 970 := Nat.mul_pos (Nat.pos_of_ne_zero hb) (bits_pos 970)
  rw [overflow_mul]
  by_cases ha : a = 0
  · simp only [ha, nearest?, if_true, Option.isSome_some, true_iff]
    omega
  · obtain ⟨q, hsome, hupper, hlower⟩ := exists_exponent ha hb
    rw [hsome]
    generalize hx : b * bits 970 = x at *
    rcases Int.lt_trichotomy q 971 with hq | rfl | hq
    · have hsmall : b * 2 ^ q.toNat ≤ x :=
        hx ▸ Nat.mul_le_mul_left b (pow_le_bits (by omega))
      have hle : a ≤ a * 2 ^ (-q).toNat := Nat.le_mul_of_pos_right a (Nat.two_pow_pos _)
      have hlt : a < (2 ^ 54 - 1) * x := by
        generalize b * 2 ^ q.toNat = y at *
        omega
      exact ⟨fun _ => hlt, fun _ => .inl hq⟩
    · have hone : a * 2 ^ (-(971 : Int)).toNat = a := Nat.mul_one a
      have hdouble : b * 2 ^ (971 : Int).toNat = 2 * x := by
        have hexp : (971 : Int).toNat = 970 + 1 := rfl
        rw [← hx, Nat.mul_left_comm, two_mul_bits hexp]
      rw [hone, hdouble] at hupper ⊢
      have hround := roundDiv_eq_iff (Nat.mul_pos Nat.two_pos hunit) (by decide) hupper
      rw [ne_eq, hround]
      omega
    · have hone : (-q).toNat = 0 := by omega
      have hbig : 4 * x ≤ b * 2 ^ q.toNat := by
        rw [← hx, Nat.mul_left_comm]
        exact Nat.mul_le_mul_left b (four_mul_bits_le (by omega))
      have hgreat := hlower (Int.lt_trans (by decide) hq)
      rw [hone, Nat.pow_zero, Nat.mul_one] at hgreat
      generalize b * 2 ^ q.toNat = y at *
      omega

/-! ### Decimal numerals -/

theorem lt_pow_length_decimal (n : Nat) : n < 10 ^ (decimal n).length :=
  (Nat.length_toDigits_le_iff (by decide) Nat.length_toDigits_pos).mp (Nat.le_refl _)

theorem pow_length_decimal_le {n : Nat} (hn : n ≠ 0) : 10 ^ ((decimal n).length - 1) ≤ n := by
  by_cases hone : (decimal n).length = 1
  · rw [hone]
    exact Nat.one_le_iff_ne_zero.mpr hn
  · have hpos : 0 < (decimal n).length := Nat.length_toDigits_pos
    have hnot : ¬(decimal n).length ≤ (decimal n).length - 1 := by omega
    rw [decimal, Nat.length_toDigits_le_iff (by decide) (by rw [decimal] at *; omega)] at hnot
    exact Nat.not_lt.mp hnot

theorem overflow_le {k : Nat} (hk : 400 ≤ k) : overflow ≤ 10 ^ k := by
  obtain ⟨m, hm, hle⟩ : ∃ m ≤ 400, overflow ≤ 10 ^ m := ⟨309, by decide, by decide +kernel⟩
  exact Nat.le_trans hle (Nat.pow_le_pow_right (by decide) (Nat.le_trans hm hk))

/-- A number with more than 400 digits before the point is too great. -/
theorem not_inRange {n : Nat} {e : Int} (hn : n ≠ 0) (h : 400 < (decimal n).length + e) :
    ¬InRange n e := by
  rw [InRange, Nat.not_lt]
  have hsplit : (decimal n).length - 1 + e.toNat
      = (decimal n).length - 1 + e.toNat - (-e).toNat + (-e).toNat := by omega
  calc overflow * 10 ^ (-e).toNat
      ≤ 10 ^ ((decimal n).length - 1 + e.toNat - (-e).toNat) * 10 ^ (-e).toNat :=
        Nat.mul_le_mul_right _ (overflow_le (by omega))
    _ = 10 ^ ((decimal n).length - 1 + e.toNat) := by rw [← Nat.pow_add, ← hsplit]
    _ = 10 ^ ((decimal n).length - 1) * 10 ^ e.toNat := Nat.pow_add 10 _ _
    _ ≤ n * 10 ^ e.toNat := Nat.mul_le_mul_right _ (pow_length_decimal_le hn)

theorem overflow_pos : 0 < overflow :=
  Nat.mul_pos (by decide) (bits_pos 970)

/-- A number with zeros only behind the point for a while is not. -/
theorem inRange_of_le {n : Nat} {e : Int} (h : (decimal n).length + e ≤ 0) : InRange n e := by
  calc n * 10 ^ e.toNat
      < 10 ^ (decimal n).length * 10 ^ e.toNat :=
        Nat.mul_lt_mul_of_pos_right (lt_pow_length_decimal n) (Nat.pow_pos (by decide))
    _ = 10 ^ ((decimal n).length + e.toNat) := (Nat.pow_add 10 _ _).symm
    _ ≤ 10 ^ (-e).toNat := Nat.pow_le_pow_right (by decide) (by omega)
    _ ≤ overflow * 10 ^ (-e).toNat := Nat.le_mul_of_pos_left _ overflow_pos

/-- **A decimal numeral denotes a double if it is in their range.** -/
theorem ofDecimal?_isSome_iff (n : Nat) (e : Int) : (ofDecimal? n e).isSome ↔ InRange n e := by
  have hten (k : Nat) : Nat.pow 10 k = 10 ^ k := rfl
  unfold ofDecimal?
  by_cases hn : n = 0
  · have hpos : 0 < overflow * 10 ^ (-e).toNat :=
      Nat.mul_pos overflow_pos (Nat.pow_pos (by decide))
    simp [hn, InRange, hpos]
  · rw [if_neg hn]
    dsimp only
    split_ifs with hgreat hsmall he
    · simp [not_inRange hn hgreat]
    · simp [inRange_of_le (n := n) (e := e) (by omega)]
    · have hone : (-e).toNat = 0 := by omega
      rw [nearest?_isSome_iff _ (by decide), InRange, hone, hten, Nat.pow_zero]
    · have hone : e.toNat = 0 := by omega
      rw [hten, nearest?_isSome_iff _ (Nat.ne_of_gt (Nat.pow_pos (by decide))), InRange, hone,
        Nat.pow_zero, Nat.mul_one]

end ImageRecipe.Number
