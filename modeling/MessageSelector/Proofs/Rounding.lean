import MessageSelector.Proofs.FloatModel
import MessageSelector.Proofs.Scaling

/-!
# Rounding to the nearest number

Every floating point number has an interval of exact numbers that are rounded to it (`RoundsTo`):
half a place to either side, and half as much below a power of two, where the places become smaller.
An operation rounds its exact result once (`IsRounded`), so it gives the number in whose interval
the exact result lies (`RoundsTo.eq_of_isRounded`).

Between the exact result and the number stand a mantissa, a rounding bit and a sticky bit. What they
say of the exact number (`Represents`) is kept by shifting places out, so only the last step rounds.
-/

namespace MessageSelector.Decimal.FloatModel

open Float.Model Float.Model.UnpackedFloat

/-! ## Exact numbers -/

/-- What a mantissa with a rounding bit and a sticky bit says of an exact number. -/
inductive Represents : ExtendedMantissa → ℚ → Prop
  | exact (n : ℕ) : Represents ⟨n, false, false⟩ n
  | below {n : ℕ} {x : ℚ} : n < x → x < n + 1 / 2 → Represents ⟨n, false, true⟩ x
  | half (n : ℕ) : Represents ⟨n, true, false⟩ (n + 1 / 2)
  | above {n : ℕ} {x : ℚ} : n + 1 / 2 < x → x < n + 1 → Represents ⟨n, true, true⟩ x

theorem div_lt_quotient_add_one (num : ℕ) {den : ℕ} (hden : 0 < den) :
    (num : ℚ) / den < (num / den : ℕ) + 1 := by
  rw [div_lt_iff₀ (Nat.cast_pos.2 hden), mul_comm]
  exact_mod_cast Nat.lt_mul_div_succ num hden

/-- The quotient and the remainder of a division represent the exact quotient. -/
theorem represents_quotient (num : ℕ) {den : ℕ} (hden : 0 < den) :
    Represents (.ofMantissaAndAccuracy (num / den) (accuracyOfFraction (num % den) den))
      (num / den) := by
  have hrest := Nat.mod_lt num hden
  have hden' : (0 : ℚ) < den := Nat.cast_pos.2 hden
  have hquotient : (num : ℚ) / den = (num / den : ℕ) + (num % den : ℕ) / den := by
    have hsum : (num : ℚ) = den * (num / den : ℕ) + (num % den : ℕ) := by
      exact_mod_cast (Nat.div_add_mod num den).symm
    rw [div_eq_iff hden'.ne', add_mul, div_mul_cancel₀ _ hden'.ne', mul_comm]
    exact hsum
  rw [hquotient]
  generalize num / den = n
  generalize num % den = rest at hrest
  have hrest' : (rest : ℚ) / den < 1 := by
    rw [div_lt_one hden']
    exact_mod_cast hrest
  unfold accuracyOfFraction
  by_cases hzero : rest = 0
  · rw [if_pos hzero, hzero, Nat.cast_zero, zero_div, add_zero]
    exact .exact n
  rw [if_neg hzero]
  rcases Nat.lt_trichotomy (2 * rest) den with h | h | h
  · rw [Nat.compare_eq_lt.2 h]
    have hpos : 0 < (rest : ℚ) / den := div_pos (Nat.cast_pos.2 (Nat.pos_of_ne_zero hzero)) hden'
    have hhalf : (rest : ℚ) / den < 1 / 2 := by
      rw [div_lt_div_iff₀ hden' two_pos]
      exact_mod_cast (by omega : rest * 2 < 1 * den)
    exact .below (by linarith) (by linarith)
  · rw [Nat.compare_eq_eq.2 h]
    have hhalf : (rest : ℚ) / den = 1 / 2 := by
      rw [div_eq_div_iff hden'.ne' two_ne_zero]
      exact_mod_cast (by omega : rest * 2 = 1 * den)
    rw [hhalf]
    exact .half n
  · rw [Nat.compare_eq_gt.2 h]
    have hhalf : 1 / 2 < (rest : ℚ) / den := by
      rw [div_lt_div_iff₀ two_pos hden']
      exact_mod_cast (by omega : 1 * den < rest * 2)
    exact .above (by linarith) (by linarith)

/-- Shifting one place out halves the number. -/
theorem Represents.shiftRightOne {em : ExtendedMantissa} {x : ℚ} (h : Represents em x) :
    Represents em.shiftRightOne (x / 2) := by
  -- The bit that is shifted out is the rounding bit, and the two bits behind it become sticky.
  have hparity (n : ℕ) : ∃ k : ℕ, n / 2 = k ∧ ((n % 2 != 0) = false ∧ (n : ℚ) = 2 * k ∨
      (n % 2 != 0) = true ∧ (n : ℚ) = 2 * k + 1) := by
    refine ⟨n / 2, rfl, ?_⟩
    rcases Nat.mod_two_eq_zero_or_one n with h | h
    · exact .inl ⟨by rw [h]; rfl, by exact_mod_cast (by omega : n = 2 * (n / 2))⟩
    · exact .inr ⟨by rw [h]; rfl, by exact_mod_cast (by omega : n = 2 * (n / 2) + 1)⟩
  unfold ExtendedMantissa.shiftRightOne
  cases h with
  | exact n =>
    obtain ⟨k, hk, ⟨hbit, hn⟩ | ⟨hbit, hn⟩⟩ := hparity n <;> simp only [hk, hbit, hn]
    · rw [mul_div_cancel_left₀ _ two_ne_zero]
      exact .exact k
    · rw [add_div, mul_div_cancel_left₀ _ two_ne_zero]
      exact .half k
  | @below n x hlow hhigh =>
    obtain ⟨k, hk, ⟨hbit, hn⟩ | ⟨hbit, hn⟩⟩ := hparity n <;> simp only [hk, hbit]
    · exact .below (by linarith) (by linarith)
    · exact .above (by linarith) (by linarith)
  | half n =>
    obtain ⟨k, hk, ⟨hbit, hn⟩ | ⟨hbit, hn⟩⟩ := hparity n <;> simp only [hk, hbit]
    · exact .below (by linarith) (by linarith)
    · exact .above (by linarith) (by linarith)
  | @above n x hlow hhigh =>
    obtain ⟨k, hk, ⟨hbit, hn⟩ | ⟨hbit, hn⟩⟩ := hparity n <;> simp only [hk, hbit]
    · exact .below (by linarith) (by linarith)
    · exact .above (by linarith) (by linarith)

theorem Represents.shiftRight {em : ExtendedMantissa} {x : ℚ} (h : Represents em x) (n : ℕ) :
    Represents (em >>> n) (x / 2 ^ n) := by
  induction n with
  | zero =>
    rw [pow_zero, div_one]
    exact h
  | succ n ih =>
    rw [pow_succ, ← div_div]
    exact ih.shiftRightOne

/-- A number within half a place is rounded to the mantissa; the even one takes what is half a place
away. -/
theorem Represents.roundedMantissa_eq {em : ExtendedMantissa} {x : ℚ} (h : Represents em x) {m : ℕ}
    (hlow : m - 1 / 2 ≤ x) (hhigh : x ≤ m + 1 / 2)
    (hodd : m % 2 = 1 → m - 1 / 2 < x ∧ x < m + 1 / 2) : em.roundedMantissa = m := by
  cases h with
  | exact n =>
    have hle : n < m + 1 := by exact_mod_cast (by linarith : (n : ℚ) < m + 1)
    have hge : m < n + 1 := by exact_mod_cast (by linarith : (m : ℚ) < n + 1)
    show n = m
    omega
  | @below n _ hx hx' =>
    have hle : n < m + 1 := by exact_mod_cast (by linarith : (n : ℚ) < m + 1)
    have hge : m < n + 1 := by exact_mod_cast (by linarith : (m : ℚ) < n + 1)
    show n = m
    omega
  | half n =>
    have hle : n ≤ m := by exact_mod_cast (by linarith : (n : ℚ) ≤ m)
    have hge : m ≤ n + 1 := by exact_mod_cast (by linarith : (m : ℚ) ≤ n + 1)
    have hne : m % 2 = 1 → n ≠ m ∧ m ≠ n + 1 := by
      intro hm
      obtain ⟨hlow', hhigh'⟩ := hodd hm
      constructor
      · rintro rfl
        linarith
      · rintro rfl
        push_cast at hlow'
        linarith
    show n + n % 2 = m
    omega
  | @above n _ hx hx' =>
    have hle : n < m := by exact_mod_cast (by linarith : (n : ℚ) < m)
    have hge : m < n + 2 := by exact_mod_cast (by linarith : (m : ℚ) < n + 2)
    show n + 1 = m
    omega

/-- The rounded mantissa is within half a place of the number. -/
theorem Represents.roundedMantissa_near {em : ExtendedMantissa} {x : ℚ} (h : Represents em x) :
    em.roundedMantissa - 1 / 2 ≤ x ∧ x ≤ em.roundedMantissa + 1 / 2 := by
  cases h with
  | exact n =>
    show (n : ℚ) - 1 / 2 ≤ n ∧ (n : ℚ) ≤ n + 1 / 2
    constructor <;> linarith
  | @below n x hlow hhigh =>
    show (n : ℚ) - 1 / 2 ≤ x ∧ x ≤ n + 1 / 2
    constructor <;> linarith
  | half n =>
    have hparity : (n % 2 : ℕ) = (0 : ℚ) ∨ (n % 2 : ℕ) = (1 : ℚ) := by
      exact_mod_cast Nat.mod_two_eq_zero_or_one n
    show ((n + n % 2 : ℕ) : ℚ) - 1 / 2 ≤ n + 1 / 2 ∧ (n : ℚ) + 1 / 2 ≤ (n + n % 2 : ℕ) + 1 / 2
    rw [Nat.cast_add]
    rcases hparity with hparity | hparity <;> rw [hparity] <;> constructor <;> linarith
  | @above n x hlow hhigh =>
    show ((n + 1 : ℕ) : ℚ) - 1 / 2 ≤ x ∧ x ≤ (n + 1 : ℕ) + 1 / 2
    rw [Nat.cast_add, Nat.cast_one]
    constructor <;> linarith

/-! ## The interval of a number -/

/-- The mantissa and the exponent of a finite number that is not zero. -/
structure Parts (m : ℕ) (q : ℤ) : Prop where
  pos : 0 < m
  lt : m < 2 ^ 53
  least : -1074 ≤ q
  greatest : q ≤ 971
  full : -1074 < q → 2 ^ 52 ≤ m

theorem Parts.canonical {m : ℕ} {q : ℤ} (h : Parts m q) (s : Sign) :
    Canonical (.finite s m q h.pos) := by
  by_cases hfull : 2 ^ 52 ≤ m
  · exact .normal s h.pos hfull h.lt h.least h.greatest
  · have hleast : q = -1074 := by
      by_contra hq
      have hlow := h.least
      exact hfull (h.full (by omega))
    subst hleast
    exact .subnormal s h.pos (by omega)

/-- How many quarters of a place the interval of a number reaches below the number. -/
def reach (m : ℕ) (q : ℤ) : ℕ :=
  if m = 2 ^ 52 ∧ -1074 < q then 1 else 2

/-- The exact numbers that are rounded to `m · 2 ^ q`. The ends of the interval are among them if
the mantissa is even. -/
structure RoundsTo (m : ℕ) (q : ℤ) (y : ℚ) : Prop where
  low : (4 * m - reach m q) * 2 ^ (q - 2) ≤ y
  high : y ≤ (4 * m + 2) * 2 ^ (q - 2)
  inside : m % 2 = 1 → (4 * m - reach m q) * 2 ^ (q - 2) < y ∧ y < (4 * m + 2) * 2 ^ (q - 2)

theorem two_zpow_pos (z : ℤ) : (0 : ℚ) < 2 ^ z :=
  zpow_pos two_pos z

theorem two_zpow_add (z : ℤ) (n : ℕ) : (2 : ℚ) ^ (z + n) = 2 ^ z * 2 ^ n := by
  rw [zpow_add₀ two_ne_zero, zpow_natCast]

/-- A number is rounded to the place that its first digit leaves for a mantissa, or to the last
place of all. -/
theorem target_bounds {f : ℕ} {e : ℤ} {y : ℚ} (hlow : f * 2 ^ e ≤ y) (hhigh : y < (f + 1) * 2 ^ e)
    {t : ℤ} (ht : Format.binary64.targetExponent (totalExponent f e) = t) (hle : e ≤ t) :
    -1074 ≤ t ∧ y < 2 ^ (t + 53) ∧ (t = -1074 ∨ 2 ^ (t + 52) ≤ y) := by
  rw [targetExponent_eq] at ht
  unfold totalExponent at ht
  have hpow (z : ℤ) (n : ℕ) : (2 : ℚ) ^ (n + z) = 2 ^ n * 2 ^ z := by
    rw [add_comm, two_zpow_add, mul_comm]
  have hlog : f + 1 ≤ 2 ^ (f.log2 + 1) := Nat.lt_log2_self
  refine ⟨by omega, ?_, ?_⟩
  · calc y < (f + 1) * 2 ^ e := hhigh
      _ ≤ 2 ^ (f.log2 + 1) * 2 ^ e :=
        mul_le_mul_of_nonneg_right (by exact_mod_cast hlog) (two_zpow_pos e).le
      _ = 2 ^ ((f.log2 + 1 : ℕ) + e) := (hpow _ _).symm
      _ ≤ 2 ^ (t + 53) := zpow_le_zpow_right₀ one_le_two (by omega)
  · by_cases hleast : t = -1074
    · exact .inl hleast
    have hne : f ≠ 0 := by
      intro hzero
      subst hzero
      rw [Nat.log2_zero] at ht
      omega
    refine .inr (le_trans ?_ hlow)
    calc (2 : ℚ) ^ (t + 52) = 2 ^ ((f.log2 : ℕ) + e) := by
          congr 1
          omega
      _ = 2 ^ f.log2 * 2 ^ e := hpow _ _
      _ ≤ f * 2 ^ e :=
        mul_le_mul_of_nonneg_right (by exact_mod_cast Nat.log2_self_le hne) (two_zpow_pos e).le

namespace RoundsTo

variable {m : ℕ} {q t : ℤ} {y : ℚ}

theorem lt_top (h : RoundsTo m q y) (hm : m < 2 ^ 53) : y < 2 ^ (q + 53) := by
  have hquarter := two_zpow_pos (q - 2)
  have hm' : (m : ℚ) + 1 ≤ 2 ^ 53 := by exact_mod_cast hm
  have htop : (2 : ℚ) ^ (q + 53) = 2 ^ (q - 2) * 2 ^ 55 := by
    rw [← two_zpow_add]
    congr 1
    omega
  rw [htop]
  nlinarith [h.high]

/-- The place to which the numbers of an interval are rounded is that of the interval's number, or
next to a power of two the one below. -/
theorem target_eq (h : RoundsTo m q y) (hparts : Parts m q) (hleast : -1074 ≤ t)
    (hlt : y < 2 ^ (t + 53)) (hfull : t = -1074 ∨ 2 ^ (t + 52) ≤ y) :
    t = q ∨ m = 2 ^ 52 ∧ -1074 < q ∧ t = q - 1 := by
  have hle : t ≤ q := by
    rcases hfull with rfl | hfull
    · exact hparts.least
    · have hlt' := lt_of_le_of_lt hfull (h.lt_top hparts.lt)
      rw [zpow_lt_zpow_iff_right₀ one_lt_two] at hlt'
      omega
  by_cases heq : t = q
  · exact .inl heq
  have hq : -1074 < q := by omega
  have hm := hparts.full hq
  have hquarter := two_zpow_pos (q - 2)
  have hpower (n : ℕ) : (2 : ℚ) ^ (q - 2 + n) = 2 ^ (q - 2) * 2 ^ n := two_zpow_add _ _
  have hlow := lt_of_le_of_lt h.low hlt
  by_cases hmin : m = 2 ^ 52
  · refine .inr ⟨hmin, hq, ?_⟩
    by_contra hne
    have htop : (2 : ℚ) ^ (t + 53) ≤ 2 ^ (q - 2 + (53 : ℕ)) :=
      zpow_le_zpow_right₀ one_le_two (by omega)
    rw [hpower] at htop
    rw [reach, if_pos ⟨hmin, hq⟩, hmin] at hlow
    push_cast at hlow
    nlinarith
  · have htop : (2 : ℚ) ^ (t + 53) ≤ 2 ^ (q - 2 + (54 : ℕ)) :=
      zpow_le_zpow_right₀ one_le_two (by omega)
    rw [hpower] at htop
    rw [reach, if_neg fun hboth => hmin hboth.1] at hlow
    have hm' : (2 : ℚ) ^ 52 + 1 ≤ m := by exact_mod_cast (by omega : 2 ^ 52 + 1 ≤ m)
    push_cast at hlow
    nlinarith

/-- Counted in places, the number is within half a place of the mantissa. -/
theorem near {z : ℚ} (h : RoundsTo m q (z * 2 ^ q)) :
    m - 1 / 2 ≤ z ∧ z ≤ m + 1 / 2 ∧ (m % 2 = 1 → m - 1 / 2 < z ∧ z < m + 1 / 2) := by
  have hquarter := two_zpow_pos (q - 2)
  have hplace : (2 : ℚ) ^ q = 4 * 2 ^ (q - 2) := by
    have hsum := two_zpow_add (q - 2) 2
    rw [show q - 2 + (2 : ℕ) = q by omega] at hsum
    rw [hsum]
    ring
  have hreach : (reach m q : ℚ) ≤ 2 := by
    unfold reach
    split <;> norm_num
  have hscale : z * 2 ^ q = 4 * z * 2 ^ (q - 2) := by
    rw [hplace]
    ring
  have hlow := h.low
  have hhigh := h.high
  have hinside := h.inside
  rw [hscale] at hlow hhigh hinside
  rw [mul_le_mul_iff_left₀ hquarter] at hlow hhigh
  rw [mul_lt_mul_iff_left₀ hquarter, mul_lt_mul_iff_left₀ hquarter] at hinside
  refine ⟨by linarith, by linarith, fun hm => ?_⟩
  obtain ⟨hlow', hhigh'⟩ := hinside hm
  exact ⟨by linarith, by linarith⟩

/-- Counted in the places below it, a number below a power of two is within half a place of it. -/
theorem near_power {z : ℚ} (h : RoundsTo (2 ^ 52) q (z * 2 ^ (q - 1))) (hq : -1074 < q) :
    2 ^ 53 - 1 / 2 ≤ z := by
  have hquarter := two_zpow_pos (q - 2)
  have hplace : (2 : ℚ) ^ (q - 1) = 2 * 2 ^ (q - 2) := by
    have hsum := two_zpow_add (q - 2) 1
    rw [show q - 2 + (1 : ℕ) = q - 1 by omega] at hsum
    rw [hsum]
    ring
  have hscale : z * 2 ^ (q - 1) = 2 * z * 2 ^ (q - 2) := by
    rw [hplace]
    ring
  have hlow := h.low
  rw [hscale, mul_le_mul_iff_left₀ hquarter, reach, if_pos ⟨rfl, hq⟩] at hlow
  push_cast at hlow
  linarith

end RoundsTo

/-- The number of places that are shifted out. -/
theorem shiftToTargetExponent_eq {n k : ℕ} {e : ℤ} (accuracy : Accuracy)
    (hk : (Format.binary64.targetExponent (totalExponent n e) - e).toNat = k) :
    shiftToTargetExponent .binary64 n e accuracy =
      (ExtendedMantissa.ofMantissaAndAccuracy n accuracy >>> k, e + k) := by
  subst hk
  rfl

/-- A mantissa that has its place is not shifted. -/
theorem shiftToTargetExponent_of_le {n : ℕ} {e : ℤ}
    (h : Format.binary64.targetExponent (totalExponent n e) ≤ e) :
    shiftToTargetExponent .binary64 n e .exact = (⟨n, false, false⟩, e) := by
  rw [shiftToTargetExponent_eq .exact (Int.toNat_of_nonpos (by omega))]
  exact Prod.ext rfl (Int.add_zero e)

/-- A mantissa that was rounded up to a power of two has lost its place, and is halved. -/
theorem shiftToTargetExponent_power {e : ℤ} (h : -1074 ≤ e) :
    shiftToTargetExponent .binary64 (2 ^ 53) e .exact = (⟨2 ^ 52, false, false⟩, e + 1) := by
  have hamount : (Format.binary64.targetExponent (totalExponent (2 ^ 53) e) - e).toNat = 1 := by
    rw [targetExponent_eq, totalExponent, Nat.log2_two_pow]
    omega
  rw [shiftToTargetExponent_eq .exact hamount]
  rfl

/-! ## What rounding gives -/

/-- A rounded mantissa at its place. A mantissa that was rounded up to a power of two loses a
place. -/
def placed (r : ℕ) (t : ℤ) : UnpackedFloat :=
  if r = 2 ^ 53 then .finite .positive (2 ^ 52) (t + 1) (by decide)
  else if h : r = 0 then .zero .positive
  else .finite .positive r t (Nat.pos_of_ne_zero h)

/-- The number that an exact number is rounded to, at the place that leaves a mantissa of it, or at
the last place of all. -/
inductive IsRounded (y : ℚ) : UnpackedFloat → Prop
  | intro {em : ExtendedMantissa} {t : ℤ} : -1074 ≤ t → y < 2 ^ (t + 53) →
    (t = -1074 ∨ 2 ^ (t + 52) ≤ y) → Represents em (y / 2 ^ t) →
    IsRounded y (placed em.roundedMantissa t)

/-- Below the next place a mantissa has at most its bits, or is the next power of two. -/
theorem Represents.roundedMantissa_le {em : ExtendedMantissa} {y : ℚ} {t : ℤ}
    (h : Represents em (y / 2 ^ t)) (htop : y < 2 ^ (t + 53)) : em.roundedMantissa ≤ 2 ^ 53 := by
  have hlow := h.roundedMantissa_near.1
  have hplaces : y / 2 ^ t < 2 ^ 53 := by
    rw [div_lt_iff₀ (two_zpow_pos t), mul_comm]
    exact lt_of_lt_of_eq htop (two_zpow_add t 53)
  have hlt : (em.roundedMantissa : ℚ) < (2 ^ 53 : ℕ) + 1 := by
    push_cast
    linarith
  exact Nat.le_of_lt_succ (by exact_mod_cast hlt)

/-- Above the least place a mantissa has all its bits. -/
theorem Represents.le_roundedMantissa {em : ExtendedMantissa} {y : ℚ} {t : ℤ}
    (h : Represents em (y / 2 ^ t)) (hfull : 2 ^ (t + 52) ≤ y) : 2 ^ 52 ≤ em.roundedMantissa := by
  have hhigh := h.roundedMantissa_near.2
  have hplaces : (2 : ℚ) ^ 52 ≤ y / 2 ^ t := by
    rw [le_div_iff₀ (two_zpow_pos t), mul_comm]
    exact le_of_eq_of_le (two_zpow_add t 52).symm hfull
  have hlt : ((2 ^ 52 : ℕ) : ℚ) < em.roundedMantissa + 1 := by
    push_cast
    linarith
  exact Nat.le_of_lt_succ (by exact_mod_cast hlt)

/-- The second shift is for a mantissa that was rounded up to a power of two. -/
theorem roundWithAccuracy_eq_placed {n : ℕ} {e t : ℤ} {accuracy : Accuracy} {em : ExtendedMantissa}
    (hem : shiftToTargetExponent .binary64 n e accuracy = (em, t))
    (hmax : em.roundedMantissa ≤ 2 ^ 53) (hleast : -1074 ≤ t) :
    roundWithAccuracy .binary64 .positive n e accuracy = placed em.roundedMantissa t := by
  obtain ⟨r, hr⟩ : ∃ r, em.roundedMantissa = r := ⟨_, rfl⟩
  rw [hr] at hmax ⊢
  unfold roundWithAccuracy placed
  by_cases hpower : r = 2 ^ 53
  · subst hpower
    simp only [hem, hr, shiftToTargetExponent_power hleast]
    rfl
  · have hplace : Format.binary64.targetExponent (totalExponent r t) ≤ t := by
      rw [targetExponent_eq, totalExponent]
      by_cases hzero : r = 0
      · rw [hzero, Nat.log2_zero]
        omega
      · have hlog := (Nat.log2_lt hzero).2 (lt_of_le_of_ne hmax hpower)
        omega
    simp only [hem, hr, shiftToTargetExponent_of_le hplace]
    rw [if_neg hpower]

/-- A quotient that is taken to its place is rounded. -/
theorem isRounded_quotient {num den : ℕ} {e : ℤ} (hden : 0 < den)
    (hle : e ≤ Format.binary64.targetExponent (totalExponent (num / den) e)) :
    IsRounded (num / den * 2 ^ e)
      (roundWithAccuracy .binary64 .positive (num / den) e
        (accuracyOfFraction (num % den) den)) := by
  obtain ⟨t, ht⟩ : ∃ t, Format.binary64.targetExponent (totalExponent (num / den) e) = t :=
    ⟨_, rfl⟩
  rw [ht] at hle
  obtain ⟨hleast, htop, hfull⟩ := target_bounds
    (mul_le_mul_of_nonneg_right Nat.cast_div_le (two_zpow_pos e).le)
    (mul_lt_mul_of_pos_right (div_lt_quotient_add_one num hden) (two_zpow_pos e)) ht hle
  obtain ⟨k, hk⟩ : ∃ k : ℕ, t = e + k := ⟨(t - e).toNat, by omega⟩
  have hscale : (num : ℚ) / den * 2 ^ e / 2 ^ t = num / den / 2 ^ k := by
    rw [hk, two_zpow_add, mul_comm ((2 : ℚ) ^ e), ← div_div, mul_div_right_comm,
      mul_div_cancel_right₀ _ (two_zpow_pos e).ne']
  -- The first shift brings the quotient to its place.
  obtain ⟨em, hem, hrepresents⟩ : ∃ em : ExtendedMantissa,
      shiftToTargetExponent .binary64 (num / den) e (accuracyOfFraction (num % den) den) =
        (em, t) ∧ Represents em (num / den * 2 ^ e / 2 ^ t) := by
    rw [hscale]
    refine ⟨_, ?_, (represents_quotient num hden).shiftRight k⟩
    rw [hk]
    exact shiftToTargetExponent_eq _ (by omega)
  rw [roundWithAccuracy_eq_placed hem (hrepresents.roundedMantissa_le htop) hleast]
  exact .intro hleast htop hfull hrepresents

/-- **A number of the interval is rounded to the interval's number.** -/
theorem RoundsTo.eq_of_isRounded {m : ℕ} {q : ℤ} {y : ℚ} {u : UnpackedFloat} (h : RoundsTo m q y)
    (hparts : Parts m q) (hu : IsRounded y u) : u = .finite .positive m q hparts.pos := by
  obtain ⟨hleast, htop, hfull, hrepresents⟩ := hu
  rename_i em t
  have hscale : y = y / 2 ^ t * 2 ^ t := (div_mul_cancel₀ y (two_zpow_pos t).ne').symm
  have hlt := hparts.lt
  rcases h.target_eq hparts hleast htop hfull with rfl | ⟨rfl, hq, rfl⟩
  · rw [hscale] at h
    obtain ⟨hlow, hhigh, hodd⟩ := h.near
    rw [placed, hrepresents.roundedMantissa_eq hlow hhigh hodd, if_neg hlt.ne,
      dif_neg hparts.pos.ne']
  · rw [hscale] at h htop
    have hpower : (2 : ℚ) ^ (q - 1 + 53) = 2 ^ 53 * 2 ^ (q - 1) := by
      rw [mul_comm]
      exact two_zpow_add (q - 1) 53
    rw [hpower, mul_lt_mul_iff_left₀ (two_zpow_pos _)] at htop
    have hround : em.roundedMantissa = 2 ^ 53 := by
      apply hrepresents.roundedMantissa_eq
      · exact_mod_cast h.near_power hq
      · push_cast
        linarith
      · intro hodd
        exact absurd hodd (by decide)
    rw [placed, if_pos hround]
    simp only [Int.sub_add_cancel]

end MessageSelector.Decimal.FloatModel
