import Mathlib
import MessageSelector.Decimal.Numeral

/-!
# Moving a factor of ten

One number has many numerals: a factor of ten may stand in the digits or in the power of ten. Which
of them is converted makes no difference (`magnitude_ten`), since a conversion rounds the exact
number once.

Where the power of ten is large both numerals are converted by one rounded product (`rounded_mul`),
whose exact value is the same. Where it is small they are converted by a division, which stops at a
number of binary places that is estimated from the lengths of both numbers; one place more is
rounded away again (`rounded_succ_of_places`). Short numerals with a power of ten in the range of
exact powers are compared one by one (`magnitude_ten_near`).
-/

namespace MessageSelector.Decimal

open Float.Model Float.Model.UnpackedFloat

/-! ## Rounding with one more place -/

/-- The bits of a fraction in front of the point, and what is known of those behind it. -/
def bits (num den : Nat) : ExtendedMantissa :=
  .ofMantissaAndAccuracy (num / den) (accuracyOfFraction (num % den) den)

theorem bits_eq {num den : Nat} (hden : 0 < den) :
    bits num den = ⟨num / den, decide (den ≤ 2 * (num % den)),
      decide (num % den ≠ 0 ∧ 2 * (num % den) ≠ den)⟩ := by
  unfold bits accuracyOfFraction
  by_cases hexact : num % den = 0
  · simp [hexact, ExtendedMantissa.ofMantissaAndAccuracy]
    omega
  · simp only [hexact, ↓reduceIte]
    rcases Nat.lt_trichotomy (2 * (num % den)) den with h | h | h
    · simp [Nat.compare_eq_lt.2 h, ExtendedMantissa.ofMantissaAndAccuracy, hexact]
      omega
    · simp [Nat.compare_eq_eq.2 h, ExtendedMantissa.ofMantissaAndAccuracy]
      omega
    · simp [Nat.compare_eq_gt.2 h, ExtendedMantissa.ofMantissaAndAccuracy, hexact]
      omega

/-- Doubling brings one place in front of the point. -/
theorem double_div_mod (num : Nat) {den : Nat} (hden : 0 < den) :
    2 * num / den = 2 * (num / den) + (decide (den ≤ 2 * (num % den))).toNat ∧
      2 * num % den = 2 * (num % den) - den * (decide (den ≤ 2 * (num % den))).toNat := by
  have hrest := Nat.mod_lt num hden
  have hnum := Nat.div_add_mod num den
  rw [Nat.div_mod_unique hden, Nat.mul_add, Nat.mul_left_comm]
  by_cases hplace : den ≤ 2 * (num % den)
  · simp only [hplace, decide_true, Bool.toNat_true, Nat.mul_one]
    omega
  · simp only [hplace, decide_false, Bool.toNat_false, Nat.mul_zero]
    omega

/-- The first place behind the point is the round bit once it is shifted out. -/
theorem shiftRightOne_bits (num : Nat) {den : Nat} (hden : 0 < den) :
    (bits (2 * num) den).shiftRightOne = bits num den := by
  have hrest := Nat.mod_lt num hden
  obtain ⟨hdiv, hmod⟩ := double_div_mod num hden
  rw [bits_eq hden, bits_eq hden, ExtendedMantissa.shiftRightOne, hdiv, hmod]
  by_cases hplace : den ≤ 2 * (num % den)
  · simp only [hplace, decide_true, Bool.toNat_true, ExtendedMantissa.mk.injEq]
    refine ⟨by omega, by simp, ?_⟩
    rw [← Bool.decide_or, decide_eq_decide]
    omega
  · simp only [hplace, decide_false, Bool.toNat_false, ExtendedMantissa.mk.injEq]
    refine ⟨by omega, by simp, ?_⟩
    rw [← Bool.decide_or, decide_eq_decide]
    omega

theorem shiftRight_succ (m : ExtendedMantissa) (n : Nat) :
    m >>> (n + 1) = m.shiftRightOne >>> n := by
  induction n with
  | zero => rfl
  | succ n ih => exact congrArg ExtendedMantissa.shiftRightOne ih

/-- A fraction rounded from as many binary places. -/
def rounded (spec : Format) (num den places : Nat) : UnpackedFloat :=
  roundWithAccuracy spec .positive ((num <<< places) / den) (-places)
    (accuracyOfFraction ((num <<< places) % den) den)

/-- The exponent to which a fraction is rounded. -/
def target (spec : Format) (num den places : Nat) : Int :=
  spec.targetExponent (totalExponent ((num <<< places) / den) (-places))

theorem rounded_succ {spec : Format} {num den places : Nat} (hden : 0 < den)
    (htarget : target spec num den (places + 1) = target spec num den places)
    (hle : -(places : Int) ≤ target spec num den places) :
    rounded spec num den (places + 1) = rounded spec num den places := by
  unfold target at htarget hle
  have hshift : num <<< (places + 1) = 2 * num <<< places := by
    rw [Nat.shiftLeft_succ]
  have hone := shiftRightOne_bits (num <<< places) hden
  unfold bits at hone
  rw [hshift] at htarget
  have hmore : shiftToTargetExponent spec (2 * num <<< places / den) (-(places + 1 : Nat))
      (accuracyOfFraction (2 * num <<< places % den) den) =
        shiftToTargetExponent spec (num <<< places / den) (-places)
          (accuracyOfFraction (num <<< places % den) den) := by
    unfold shiftToTargetExponent shiftToExponent
    rw [htarget]
    generalize spec.targetExponent (totalExponent (num <<< places / den) (-places)) = e at hle
    have hamount : (e - -(places + 1 : Nat)).toNat = (e - -(places : Int)).toNat + 1 := by omega
    dsimp only
    rw [hamount, shiftRight_succ, hone]
    exact congrArg (Prod.mk _) (by omega)
  unfold rounded roundWithAccuracy
  rw [hshift, hmore]

/-! ## Enough places -/

/-- How many places the quotient of two natural numbers is taken to. -/
def places (num den : Nat) : Nat :=
  (-Format.binary64.targetExponent ((num.log2 : Int) - den.log2)).toNat

theorem targetExponent_eq (e : Int) : Format.binary64.targetExponent e = max (e - 53) (-1074) :=
  rfl

/-- A quotient has a place less than its numerator has more places than its denominator. -/
theorem two_pow_le_quotient {num den n : Nat} (hnum : 0 < num) (hden : 0 < den)
    (h : den.log2 < num.log2 + n) :
    2 ^ (num.log2 + n - den.log2 - 1) ≤ (num <<< n) / den := by
  have hnum' := Nat.log2_self_le (Nat.ne_of_gt hnum)
  have hden' := Nat.le_of_lt (@Nat.lt_log2_self den)
  rw [Nat.le_div_iff_mul_le hden, Nat.shiftLeft_eq]
  calc 2 ^ (num.log2 + n - den.log2 - 1) * den
      ≤ 2 ^ (num.log2 + n - den.log2 - 1) * 2 ^ (den.log2 + 1) := Nat.mul_le_mul_left _ hden'
    _ = 2 ^ num.log2 * 2 ^ n := by
      rw [← Nat.pow_add, ← Nat.pow_add]
      congr 1
      omega
    _ ≤ num * 2 ^ n := Nat.mul_le_mul_right _ hnum'

/-- One place more makes a quotient one place longer. -/
theorem log2_quotient_succ {num den n : Nat} (h : num <<< n / den ≠ 0) :
    (num <<< (n + 1) / den).log2 = (num <<< n / den).log2 + 1 := by
  have hhalf : num <<< (n + 1) / den / 2 = num <<< n / den := by
    rw [Nat.shiftLeft_succ, Nat.div_div_eq_div_mul, Nat.mul_comm den,
      Nat.mul_div_mul_left _ _ (by decide)]
  generalize num <<< (n + 1) / den = more at hhalf ⊢
  rw [Nat.log2_def, if_pos (by omega), hhalf]

/-- With as many places, and no more than the smallest numbers have, one more makes no
difference. -/
theorem rounded_succ_of_places {num den n : Nat} (hnum : 0 < num) (hden : 0 < den)
    (hle : places num den ≤ n) (hlt : n < 1074) :
    rounded .binary64 num den (n + 1) = rounded .binary64 num den n := by
  unfold places at hle
  rw [targetExponent_eq] at hle
  have hquotient := @two_pow_le_quotient num den n hnum hden (by omega)
  have hpos : num <<< n / den ≠ 0 := by
    have := Nat.two_pow_pos (num.log2 + n - den.log2 - 1)
    omega
  have hlog := (Nat.le_log2 hpos).2 hquotient
  apply rounded_succ hden
  · unfold target totalExponent
    rw [log2_quotient_succ hpos]
    exact congrArg _ (by omega)
  · unfold target totalExponent
    rw [targetExponent_eq]
    omega

theorem compare_mul {k : Nat} (hk : 0 < k) (a b : Nat) : compare (k * a) (k * b) = compare a b := by
  rcases Nat.lt_trichotomy a b with h | rfl | h
  · rw [Nat.compare_eq_lt.2 h, Nat.compare_eq_lt.2 (Nat.mul_lt_mul_of_pos_left h hk)]
  · rw [Nat.compare_eq_eq.2 rfl, Nat.compare_eq_eq.2 rfl]
  · rw [Nat.compare_eq_gt.2 h, Nat.compare_eq_gt.2 (Nat.mul_lt_mul_of_pos_left h hk)]

/-- A factor in both numbers makes no difference. -/
theorem rounded_mul {k : Nat} (hk : 0 < k) (num den n : Nat) :
    rounded .binary64 (k * num) (k * den) n = rounded .binary64 num den n := by
  have hshift : (k * num) <<< n = k * num <<< n := by
    rw [Nat.shiftLeft_eq, Nat.shiftLeft_eq, Nat.mul_assoc]
  have haccuracy (r : Nat) : accuracyOfFraction (k * r) (k * den) = accuracyOfFraction r den := by
    unfold accuracyOfFraction
    by_cases hr : r = 0
    · simp [hr]
    · rw [if_neg (Nat.mul_ne_zero (Nat.ne_of_gt hk) hr), if_neg hr, Nat.mul_left_comm,
        compare_mul hk]
  unfold rounded
  rw [hshift, Nat.mul_div_mul_left _ _ hk, Nat.mul_mod_mul_left, haccuracy]

/-! ## A factor of ten in both numbers -/

theorem log2_ten_mul {n : Nat} (hn : 0 < n) :
    n.log2 + 3 ≤ (10 * n).log2 ∧ (10 * n).log2 ≤ n.log2 + 4 := by
  have hlow := Nat.log2_self_le (Nat.ne_of_gt hn)
  have hhigh := @Nat.lt_log2_self n
  have hten : 10 * n ≠ 0 := by omega
  rw [Nat.pow_succ] at hhigh
  constructor
  · rw [Nat.le_log2 hten, Nat.pow_add]
    omega
  · apply Nat.le_of_lt_succ
    rw [Nat.log2_lt hten, Nat.succ_eq_add_one, Nat.add_assoc, Nat.pow_add]
    omega

/-- The two divisions are taken to the same number of places, or to one more. -/
theorem rounded_places_ten {num den : Nat} (hnum : 0 < num) (hden : 0 < den) :
    rounded .binary64 (10 * num) (10 * den) (places (10 * num) (10 * den)) =
      rounded .binary64 num den (places num den) := by
  have hlogNum := log2_ten_mul hnum
  have hlogDen := log2_ten_mul hden
  -- Each logarithm grows by three or four, so the estimate changes by one place at most; a change
  -- shows that it is not the greatest one.
  obtain hsame | hmore | hless :
      places (10 * num) (10 * den) = places num den ∨
      (places (10 * num) (10 * den) = places num den + 1 ∧ places num den < 1074) ∨
      (places num den = places (10 * num) (10 * den) + 1 ∧
        places (10 * num) (10 * den) < 1074) := by
    unfold places
    rw [targetExponent_eq, targetExponent_eq]
    omega
  · rw [hsame, rounded_mul (by decide)]
  · rw [hmore.1, rounded_mul (by decide)]
    exact rounded_succ_of_places hnum hden (Nat.le_refl _) hmore.2
  · rw [hless.1, ← @rounded_mul 10 (by decide) num den]
    exact (rounded_succ_of_places (by omega) (by omega) (Nat.le_refl _) hless.2).symm

theorem div_eq_rounded {num den : Nat} (hnum : 0 < num) (hden : 0 < den) :
    UnpackedFloat.div .binary64 (.finite .positive num 0 hnum) (.finite .positive den 0 hden) =
      rounded .binary64 num den (places num den) := by
  have htotal : totalExponent num 0 - totalExponent den 0 = (num.log2 : Int) - den.log2 := by
    unfold totalExponent
    omega
  have hexponent : min (0 - 0) (Format.binary64.targetExponent ((num.log2 : Int) - den.log2)) =
      -(places num den : Int) := by
    unfold places
    omega
  unfold UnpackedFloat.div divCore
  dsimp only
  rw [htotal, hexponent]
  have hamount : (0 - 0 - -(places num den : Int)).toNat = places num den := by omega
  rw [hamount]
  rfl

/-! ## Conversions -/

namespace Numeral

/-- A numeral with a negative power of ten, which is out of the range of exact powers or has many
digits. -/
theorem ofScientific_div {n k : Nat} (hn : 0 < n) (hslow : ¬ (n < 2 ^ 53 ∧ k ≤ 22)) (hlow : 0 < k)
    (hhigh : k ≤ 2048 + n.log2) :
    Float.ofScientific n true k = .ofModel (.pack (UnpackedFloat.div .binary64
      (.finite .positive n 0 hn) (.finite .positive (10 ^ k) 0 (Nat.pow_pos (by decide))))) := by
  have hk : Int.negOfNat k = -(k : Int) := Int.negOfNat_eq
  have hbounds : ¬ (-(k : Int) > 2 ^ Format.binary64.exponentBits) ∧
      ¬ (-(k : Int) < -((2 ^ Format.binary64.exponentBits : Int) + n.log2)) ∧
      ¬ (0 ≤ -(k : Int)) := by
    simp only [Int.reducePow]
    omega
  have hten : (- -(k : Int)).toNat = k := by omega
  rw [Float.ofScientific, dif_neg hslow]
  simp only [↓reduceIte, hk]
  unfold Float.Model.ofScientific UnpackedFloat.ofScientific
  rw [dif_neg (Nat.ne_of_gt hn), if_neg hbounds.1, if_neg hbounds.2.1, if_neg hbounds.2.2]
  simp only [hten]

/-- A numeral with a great power of ten in its denominator. -/
theorem ofScientific_neg {n k : Nat} (hn : 0 < n) (hlow : 23 ≤ k) (hhigh : k ≤ 2048) :
    Float.ofScientific n true k =
      .ofModel (.pack (rounded .binary64 n (10 ^ k) (places n (10 ^ k)))) := by
  rw [ofScientific_div hn (by omega) (by omega) (by omega), div_eq_rounded]

/-- A numeral with a power of ten as a factor, which is out of the range of exact powers or has many
digits. -/
theorem ofScientific_mul {n k : Nat} (hn : 0 < n) (hslow : ¬ (n < 2 ^ 53 ∧ k ≤ 22))
    (hhigh : k ≤ 2048) :
    Float.ofScientific n false k = .ofModel
      (.pack (roundWithAccuracy .binary64 .positive (n * 10 ^ k * 2 ^ 53) (-53) .exact)) := by
  have hbounds : ¬ ((k : Int) > 2 ^ Format.binary64.exponentBits) ∧
      ¬ ((k : Int) < -((2 ^ Format.binary64.exponentBits : Int) + n.log2)) ∧ 0 ≤ (k : Int) := by
    simp only [Int.reducePow]
    omega
  rw [Float.ofScientific, dif_neg hslow]
  simp only [Bool.false_eq_true, ↓reduceIte, Int.ofNat_eq_natCast]
  unfold Float.Model.ofScientific UnpackedFloat.ofScientific
  rw [dif_neg (Nat.ne_of_gt hn), if_neg hbounds.1, if_neg hbounds.2.1, if_pos hbounds.2.2]
  unfold UnpackedFloat.mul
  have hmantissa : n <<< Format.binary64.mantissaBits * 10 ^ (k : Int).toNat =
      n * 10 ^ k * 2 ^ 53 := by
    rw [Nat.shiftLeft_eq, Int.toNat_natCast, Nat.mul_right_comm]
    rfl
  simp only [hmantissa]
  rfl

theorem magnitude_neg {n k : Nat} (hn : 0 < n) (hlow : 0 < k) (hhigh : k ≤ 400 + n.log2) :
    magnitude n (-k) = Float.ofScientific n true k := by
  unfold magnitude
  rw [if_neg (Nat.ne_of_gt hn), if_neg (by omega), if_neg (by omega), Int.natAbs_neg,
    Int.natAbs_natCast, decide_eq_true (by omega)]

theorem magnitude_pos {n k : Nat} (hn : 0 < n) (hhigh : k ≤ 400) :
    magnitude n k = Float.ofScientific n false k := by
  unfold magnitude
  rw [if_neg (Nat.ne_of_gt hn), if_neg (by omega), if_neg (by omega), Int.natAbs_natCast,
    decide_eq_false (by omega)]

/-- A factor of ten may be moved out of a great denominator. -/
theorem magnitude_ten_neg {n k : Nat} (hn : 0 < n) (hlow : 23 ≤ k) (hhigh : k ≤ 400 + n.log2)
    (hroom : n.log2 ≤ 1000) : magnitude (10 * n) (-(k + 1 : Nat)) = magnitude n (-k) := by
  have hlog := log2_ten_mul hn
  rw [magnitude_neg hn (by omega) hhigh, magnitude_neg (by omega) (by omega) (by omega),
    ofScientific_neg hn hlow (by omega), ofScientific_neg (by omega) (by omega) (by omega),
    Nat.pow_succ', rounded_places_ten hn (Nat.pow_pos (by decide))]

/-- A factor of ten may be moved out of a great power of ten. -/
theorem magnitude_ten_pos {n k : Nat} (hn : 0 < n) (hlow : 23 ≤ k) (hhigh : k < 400) :
    magnitude (10 * n) k = magnitude n (k + 1 : Nat) := by
  have hproduct : 10 * n * 10 ^ k = n * 10 ^ (k + 1) := by
    rw [Nat.pow_succ', Nat.mul_comm 10 n, Nat.mul_assoc]
  rw [magnitude_pos hn (by omega), magnitude_pos (by omega) (by omega),
    ofScientific_mul hn (by omega) (by omega), ofScientific_mul (by omega) (by omega) (by omega),
    hproduct]

/-- Where powers of ten are exact, the numerals of one digit are compared one by one. -/
theorem magnitude_ten_near : ∀ d < 10,
    (∀ k < 8, magnitude (10 * d) (15 + k : Nat) = magnitude d (16 + k : Nat)) ∧
    ∀ k < 18, magnitude (10 * d) (-(6 + k : Nat)) = magnitude d (-(5 + k : Nat)) := by
  decide +kernel

/-- At the ends of the range one of two numerals is converted and the other is not. -/
theorem magnitude_ten_far : ∀ d < 10, magnitude (10 * d) 400 = magnitude d 401 ∧
    ∀ k < 6, magnitude (10 * d) (-(402 + k : Nat)) = magnitude d (-(401 + k : Nat)) := by
  decide +kernel

/-- A factor of ten may be moved from the power of ten into a single digit, where numerals have an
exponent. -/
theorem magnitude_ten {d : Nat} (hd : d < 10) {e : Int} (he : e < -4 ∨ 15 < e) :
    magnitude (10 * d) (e - 1) = magnitude d e := by
  by_cases hzero : d = 0
  · subst hzero
    rfl
  have hpos : 0 < d := Nat.pos_of_ne_zero hzero
  have hlog := log2_ten_mul hpos
  have hlogDigit : d.log2 < 4 := (Nat.log2_lt hzero).2 (by omega)
  -- On either side of zero: exact powers, conversions, the end of the range and what is beyond.
  rcases he with he | he
  · obtain ⟨k, rfl⟩ : ∃ k : Nat, e = -(k : Int) := ⟨e.natAbs, by omega⟩
    have hsub : -(k : Int) - 1 = -(k + 1 : Nat) := by omega
    rw [hsub]
    by_cases hnear : k < 23
    · have h := (magnitude_ten_near d hd).2 (k - 5) (by omega)
      rwa [show 6 + (k - 5) = k + 1 by omega, show 5 + (k - 5) = k by omega] at h
    by_cases hrange : k ≤ 400 + d.log2
    · exact magnitude_ten_neg hpos (by omega) hrange (by omega)
    by_cases hfar : k < 407
    · have h := (magnitude_ten_far d hd).2 (k - 401) (by omega)
      rwa [show 402 + (k - 401) = k + 1 by omega, show 401 + (k - 401) = k by omega] at h
    · unfold magnitude
      rw [if_neg (by omega), if_neg (by omega), if_pos (by omega), if_neg hzero,
        if_neg (by omega), if_pos (by omega)]
  · obtain ⟨k, rfl⟩ : ∃ k : Nat, e = (k + 1 : Nat) := ⟨e.natAbs - 1, by omega⟩
    have hsub : ((k + 1 : Nat) : Int) - 1 = k := by omega
    rw [hsub]
    by_cases hnear : k < 23
    · have h := (magnitude_ten_near d hd).1 (k - 15) (by omega)
      rwa [show 15 + (k - 15) = k by omega, show 16 + (k - 15) = k + 1 by omega] at h
    by_cases hrange : k < 400
    · exact magnitude_ten_pos hpos (by omega) hrange
    by_cases hfar : k = 400
    · subst hfar
      exact (magnitude_ten_far d hd).1
    · unfold magnitude
      rw [if_neg (by omega), if_pos (by omega), if_neg hzero, if_pos (by omega)]

end Numeral

end MessageSelector.Decimal
