import MessageSelector.Proofs.Rounding

/-!
# Converting numerals

A numeral is converted to the number in whose interval it lies (`RoundsTo.magnitude_eq`), and so to
the nearest one (`nearest_magnitude`). Numerals with few digits and a small power of ten are
converted by one operation on two exact numbers (`Exact`), all others by one operation on natural
numbers, so the exact value is rounded once either way.
-/

namespace MessageSelector.Decimal.FloatModel

open Float.Model Float.Model.UnpackedFloat

/-! ## Operations -/

variable {m : ℕ} {q : ℤ}

/-- An exact number with at least as many places as a mantissa is rounded. -/
theorem isRounded_exact {n : ℕ} {e : ℤ} (hfull : 2 ^ 52 ≤ n) :
    IsRounded (n * 2 ^ e) (roundWithAccuracy .binary64 .positive n e .exact) := by
  have hlog := (Nat.le_log2 (by omega)).2 hfull
  have hround := @isRounded_quotient n 1 e one_pos (by
    rw [Nat.div_one, targetExponent_eq, totalExponent]
    omega)
  rwa [Nat.div_one, Nat.mod_one, Nat.cast_one, div_one] at hround

theorem isRounded_mul {m₁ m₂ : ℕ} {e₁ e₂ : ℤ} (hm₁ : 0 < m₁) (hm₂ : 0 < m₂)
    (hfull : 2 ^ 52 ≤ m₁ * m₂) : IsRounded (m₁ * 2 ^ e₁ * (m₂ * 2 ^ e₂))
      (UnpackedFloat.mul .binary64 (.finite .positive m₁ e₁ hm₁)
        (.finite .positive m₂ e₂ hm₂)) := by
  have hproduct : (m₁ : ℚ) * 2 ^ e₁ * (m₂ * 2 ^ e₂) = (m₁ * m₂ : ℕ) * 2 ^ (e₁ + e₂) := by
    rw [Nat.cast_mul, zpow_add₀ two_ne_zero, mul_mul_mul_comm]
  rw [hproduct]
  exact isRounded_exact hfull

theorem isRounded_div {m₁ m₂ : ℕ} {e₁ e₂ : ℤ} (hm₁ : 0 < m₁) (hm₂ : 0 < m₂) :
    IsRounded (m₁ * 2 ^ e₁ / (m₂ * 2 ^ e₂))
      (UnpackedFloat.div .binary64 (.finite .positive m₁ e₁ hm₁)
        (.finite .positive m₂ e₂ hm₂)) := by
  obtain ⟨e, he⟩ : ∃ e, min (e₁ - e₂)
    (Format.binary64.targetExponent (totalExponent m₁ e₁ - totalExponent m₂ e₂)) = e := ⟨_, rfl⟩
  obtain ⟨k, hk⟩ : ∃ k : ℕ, e₁ - e₂ = e + k := ⟨(e₁ - e₂ - e).toNat, by omega⟩
  have hamount : (e₁ - e₂ - e).toNat = k := by omega
  have hquotient : (m₁ : ℚ) * 2 ^ e₁ / (m₂ * 2 ^ e₂) = (m₁ <<< k : ℕ) / m₂ * 2 ^ e := by
    rw [mul_div_mul_comm, ← zpow_sub₀ two_ne_zero, hk, two_zpow_add, Nat.shiftLeft_eq]
    push_cast
    ring
  have hround := @isRounded_quotient (m₁ <<< k) m₂ e hm₂ (by
    rw [targetExponent_eq, totalExponent, totalExponent] at he
    rw [targetExponent_eq, totalExponent]
    by_cases hleast : e ≤ -1074
    · omega
    -- The quotient was taken to as many places as a mantissa has.
    · have hlt : m₂.log2 < m₁.log2 + k := by omega
      have hle := two_pow_le_quotient hm₁ hm₂ hlt
      have hpos : m₁ <<< k / m₂ ≠ 0 := by
        have hpower := Nat.two_pow_pos (m₁.log2 + k - m₂.log2 - 1)
        omega
      have hlog := (Nat.le_log2 hpos).2 hle
      omega)
  rw [hquotient]
  unfold UnpackedFloat.div divCore
  dsimp only
  rw [he, hamount]
  exact hround

/-! ## Exact operands -/

theorem zpow_eq_div {a : ℚ} (ha : a ≠ 0) (z : ℤ) : a ^ z = a ^ z.toNat / a ^ (-z).toNat := by
  rw [← zpow_natCast, ← zpow_natCast, ← zpow_sub₀ ha]
  congr 1
  omega

/-- A number with a full mantissa, and the exact number that it stands for. -/
inductive Exact : UnpackedFloat → ℚ → Prop
  | intro {m : ℕ} {e : ℤ} (hm : 0 < m) : 2 ^ 52 ≤ m → Exact (.finite .positive m e hm) (m * 2 ^ e)

theorem Exact.mul {u v : UnpackedFloat} {y z : ℚ} (hu : Exact u y) (hv : Exact v z) :
    IsRounded (y * z) (UnpackedFloat.mul .binary64 u v) := by
  cases hu with
  | intro hm₁ hfull =>
    cases hv with
    | intro hm₂ _ =>
      exact isRounded_mul hm₁ hm₂ (le_trans hfull (Nat.le_mul_of_pos_right _ hm₂))

theorem Exact.div {u v : UnpackedFloat} {y z : ℚ} (hu : Exact u y) (hv : Exact v z) :
    IsRounded (y / z) (UnpackedFloat.div .binary64 u v) := by
  cases hu with
  | intro hm₁ _ =>
    cases hv with
    | intro hm₂ _ => exact isRounded_div hm₁ hm₂

/-- A number is in its own interval. -/
theorem roundsTo_self (m : ℕ) (q : ℤ) : RoundsTo m q (m * 2 ^ q) := by
  have hquarter := two_zpow_pos (q - 2)
  have hplace : (m : ℚ) * 2 ^ q = 4 * m * 2 ^ (q - 2) := by
    have hsum := two_zpow_add (q - 2) 2
    rw [show q - 2 + (2 : ℕ) = q by omega] at hsum
    rw [hsum]
    ring
  have hreach : (0 : ℚ) < reach m q := by
    unfold reach
    split <;> norm_num
  rw [hplace]
  refine ⟨?_, ?_, fun _ => ⟨?_, ?_⟩⟩
  · exact mul_le_mul_of_nonneg_right (by linarith) hquarter.le
  · exact mul_le_mul_of_nonneg_right (by linarith) hquarter.le
  · exact mul_lt_mul_of_pos_right (by linarith) hquarter
  · exact mul_lt_mul_of_pos_right (by linarith) hquarter

/-- A natural number with at most as many digits as a mantissa is exact. -/
theorem exact_toFloat {n : ℕ} (hn : 0 < n) (hlt : n < 2 ^ 53) :
    Exact n.toUInt64.toFloat.toModel.unpack n := by
  have hlow := Nat.log2_self_le hn.ne'
  have hhigh := @Nat.lt_log2_self n
  have hlog : n.log2 ≤ 52 := Nat.le_of_lt_succ ((Nat.log2_lt hn.ne').2 hlt)
  obtain ⟨k, hk⟩ : ∃ k : ℕ, n.log2 + k = 52 := ⟨52 - n.log2, by omega⟩
  have hfull : 2 ^ 52 ≤ n * 2 ^ k := by
    calc 2 ^ 52 = 2 ^ n.log2 * 2 ^ k := by rw [← Nat.pow_add, hk]
      _ ≤ n * 2 ^ k := Nat.mul_le_mul_right _ hlow
  have hparts : Parts (n * 2 ^ k) (-k) := by
    refine ⟨by omega, ?_, by omega, by omega, fun _ => hfull⟩
    calc n * 2 ^ k < 2 ^ (n.log2 + 1) * 2 ^ k := Nat.mul_lt_mul_of_pos_right hhigh (by positivity)
      _ = 2 ^ 53 := by
        rw [← Nat.pow_add]
        congr 1
        omega
  have hvalue : ((n * 2 ^ k : ℕ) : ℚ) * 2 ^ (-k : ℤ) = n := by
    rw [zpow_neg, zpow_natCast]
    push_cast
    exact mul_inv_cancel_right₀ (by positivity) _
  have hround := (roundsTo_self (n * 2 ^ k) (-k)).eq_of_isRounded hparts (isRounded_exact hfull)
  have hword : n.toUInt64.toNat = n := by
    rw [Nat.toUInt64, UInt64.toNat_ofNat']
    exact Nat.mod_eq_of_lt (by omega)
  have hunpack : UnpackedFloat.ofUInt64 .binary64 n.toUInt64 =
      .finite .positive (n * 2 ^ k) (-k) hparts.pos := by
    have hamount : (-Format.binary64.targetExponent (totalExponent n 0)).toNat = k := by
      rw [targetExponent_eq, totalExponent]
      omega
    have hpos : compare (n : ℤ) 0 = .gt := Int.compare_eq_gt.2 (by omega)
    unfold UnpackedFloat.ofUInt64 UnpackedFloat.ofNat UnpackedFloat.ofInt UnpackedFloat.normalize
    rw [hword, hpos]
    simp only [UnpackedFloat.round, decreaseExponent, Int.toNat_natCast, Int.zero_sub, hamount,
      Nat.shiftLeft_eq]
    exact hround
  have hnumber : n.toUInt64.toFloat.toModel.unpack =
      .finite .positive (n * 2 ^ k) (-k) hparts.pos := by
    show (Float.ofModel (.pack (UnpackedFloat.ofUInt64 .binary64 n.toUInt64))).toModel.unpack = _
    rw [hunpack, unpack_ofModel_pack]
    exact .normal _ _ hfull hparts.lt (by omega) (by omega)
  rw [hnumber, ← hvalue]
  exact .intro _ hfull

/-- Whether a number with a full mantissa is a power of ten. -/
def isPowerOfTen (k : ℕ) : UnpackedFloat → Bool
  | .finite .positive m e _ => 2 ^ 52 ≤ m && m * 2 ^ e.toNat == 10 ^ k * 2 ^ (-e).toNat
  | _ => false

theorem exact_of_isPowerOfTen {k : ℕ} {u : UnpackedFloat} (h : isPowerOfTen k u) :
    Exact u (10 ^ k) := by
  unfold isPowerOfTen at h
  split at h
  · next m e hm =>
    rw [Bool.and_eq_true, decide_eq_true_eq, beq_iff_eq] at h
    have hvalue : (m : ℚ) * 2 ^ e = 10 ^ k := by
      rw [zpow_eq_div two_ne_zero, ← mul_div_assoc, div_eq_iff (by positivity)]
      exact_mod_cast h.2
    rw [← hvalue]
    exact .intro hm h.1
  · cases h

/-- The powers of ten in the table are exact. -/
theorem exact_powerOfTen {k : ℕ} (hk : k < Float.exactlyRepresentablePowersOfTen.size) :
    Exact Float.exactlyRepresentablePowersOfTen[k].toModel.unpack (10 ^ k) := by
  have hall : ∀ i : Fin 23, isPowerOfTen i
      (Float.exactlyRepresentablePowersOfTen[i.val]).toModel.unpack := by decide +kernel
  exact exact_of_isPowerOfTen (hall ⟨k, hk⟩)

/-! ## Numerals -/

theorem two_zpow_le_ten_zpow (n : ℕ) : (2 : ℚ) ^ (3 * (n : ℤ)) ≤ 10 ^ (n : ℤ) := by
  rw [zpow_mul, zpow_natCast, zpow_natCast]
  exact pow_le_pow_left₀ (by positivity) (by norm_num) n

/-- No number reaches the powers of ten above the range. -/
theorem RoundsTo.le_range {n : ℕ} {k : ℤ} (h : RoundsTo m q (n * 10 ^ k)) (hparts : Parts m q)
    (hn : 0 < n) : k ≤ 400 := by
  by_contra hk
  have hone : (1 : ℚ) ≤ n := by exact_mod_cast hn
  have htop := hparts.greatest
  have hlt : (2 : ℚ) ^ (3 * (400 : ℕ) : ℤ) < 2 ^ (1024 : ℤ) := by
    calc (2 : ℚ) ^ (3 * (400 : ℕ) : ℤ) ≤ 10 ^ ((400 : ℕ) : ℤ) := two_zpow_le_ten_zpow 400
      _ ≤ 10 ^ k := zpow_le_zpow_right₀ (by norm_num) (by omega)
      _ ≤ n * 10 ^ k := le_mul_of_one_le_left (zpow_pos (by norm_num) k).le hone
      _ < 2 ^ (q + 53) := h.lt_top hparts.lt
      _ ≤ 2 ^ (1024 : ℤ) := zpow_le_zpow_right₀ one_le_two (by omega)
  rw [zpow_lt_zpow_iff_right₀ one_lt_two] at hlt
  omega

/-- A number that is not zero is above the least place. -/
theorem RoundsTo.least_le {y : ℚ} (h : RoundsTo m q y) (hparts : Parts m q) :
    (2 : ℚ) ^ (-1075 : ℤ) ≤ y := by
  have hm : (1 : ℚ) ≤ m := by exact_mod_cast hparts.pos
  have hleast := hparts.least
  have hreach : (reach m q : ℚ) ≤ 2 := by
    unfold reach
    split <;> norm_num
  calc (2 : ℚ) ^ (-1075 : ℤ) ≤ 2 ^ (q - 2 + (1 : ℕ)) := zpow_le_zpow_right₀ one_le_two (by omega)
    _ = 2 * 2 ^ (q - 2) := by rw [two_zpow_add, pow_one, mul_comm]
    _ ≤ (4 * m - reach m q) * 2 ^ (q - 2) :=
      mul_le_mul_of_nonneg_right (by linarith) (two_zpow_pos _).le
    _ ≤ y := h.low

/-- A number that is not zero is above the powers of ten below the range, also times its digits. -/
theorem RoundsTo.range_le {n : ℕ} {k : ℤ} (h : RoundsTo m q (n * 10 ^ k)) (hparts : Parts m q) :
    -400 - (n.log2 : ℤ) ≤ k := by
  by_contra hk
  have hten : (10 : ℚ) ^ k ≤ 2 ^ (-(1203 + 3 * (n.log2 : ℤ))) := by
    calc (10 : ℚ) ^ k ≤ 10 ^ (-((401 + n.log2 : ℕ) : ℤ)) :=
          zpow_le_zpow_right₀ (by norm_num) (by push_cast; omega)
      _ = ((10 : ℚ) ^ ((401 + n.log2 : ℕ) : ℤ))⁻¹ := zpow_neg _ _
      _ ≤ ((2 : ℚ) ^ (3 * ((401 + n.log2 : ℕ) : ℤ)))⁻¹ :=
        inv_anti₀ (two_zpow_pos _) (two_zpow_le_ten_zpow _)
      _ = 2 ^ (-(1203 + 3 * (n.log2 : ℤ))) := by
        rw [← zpow_neg]
        congr 1
        push_cast
        ring
  have hdigits : (n : ℚ) ≤ 2 ^ ((n.log2 : ℤ) + 1) := by
    have hlt := @Nat.lt_log2_self n
    exact_mod_cast hlt.le
  have habove : (2 : ℚ) ^ (-1075 : ℤ) ≤ 2 ^ (-1202 - 2 * (n.log2 : ℤ)) := by
    calc (2 : ℚ) ^ (-1075 : ℤ) ≤ n * 10 ^ k := h.least_le hparts
      _ ≤ 2 ^ ((n.log2 : ℤ) + 1) * 2 ^ (-(1203 + 3 * (n.log2 : ℤ))) :=
        mul_le_mul hdigits hten (zpow_pos (by norm_num) k).le (two_zpow_pos _).le
      _ = 2 ^ (-1202 - 2 * (n.log2 : ℤ)) := by
        rw [← zpow_add₀ two_ne_zero]
        congr 1
        ring
  rw [zpow_le_zpow_iff_right₀ one_lt_two] at habove
  omega

/-- The number that an exact number is converted to. -/
def Nearest (y : ℚ) (x : Float) : Prop :=
  ∃ u, IsRounded y u ∧ x = .ofModel (.pack u)

theorem nearest_ofScientific_mul {n k : ℕ} (hn : 0 < n) (hk : k ≤ 400) :
    Nearest (n * 10 ^ k) (Float.ofScientific n false k) := by
  by_cases hfast : n < 2 ^ 53 ∧ k ≤ 22
  · have hproduct := (exact_toFloat hn hfast.1).mul (exact_powerOfTen (Nat.lt_succ_of_le hfast.2))
    refine ⟨_, hproduct, ?_⟩
    rw [Float.ofScientific, dif_pos hfast]
    rfl
  · have hpos : 0 < n * 10 ^ k := Nat.mul_pos hn (Nat.pow_pos (by decide))
    have hvalue : (n : ℚ) * 10 ^ k = (n * 10 ^ k * 2 ^ 53 : ℕ) * 2 ^ (-53 : ℤ) := by
      rw [zpow_neg]
      push_cast
      exact (mul_inv_cancel_right₀ (by norm_num) _).symm
    rw [hvalue]
    exact ⟨_, isRounded_exact (by omega), Numeral.ofScientific_mul hn hfast (by omega)⟩

theorem nearest_ofScientific_div {n k : ℕ} (hn : 0 < n) (hlow : 0 < k)
    (hk : k ≤ 400 + n.log2) : Nearest (n / 10 ^ k) (Float.ofScientific n true k) := by
  by_cases hfast : n < 2 ^ 53 ∧ k ≤ 22
  · have hquotient := (exact_toFloat hn hfast.1).div
      (exact_powerOfTen (Nat.lt_succ_of_le hfast.2))
    refine ⟨_, hquotient, ?_⟩
    rw [Float.ofScientific, dif_pos hfast]
    rfl
  · have hvalue : (n : ℚ) / 10 ^ k = n * 2 ^ (0 : ℤ) / ((10 ^ k : ℕ) * 2 ^ (0 : ℤ)) := by
      rw [zpow_zero, mul_one, mul_one]
      push_cast
      rfl
    rw [hvalue]
    exact ⟨_, isRounded_div hn _, Numeral.ofScientific_div hn hfast hlow (by omega)⟩

/-- In the range of the exponents that are converted, the exact number is rounded once. -/
theorem nearest_magnitude {n : ℕ} {k : ℤ} (hn : 0 < n) (hrange : k ≤ 400)
    (hrange' : -400 - (n.log2 : ℤ) ≤ k) : Nearest (n * 10 ^ k) (Numeral.magnitude n k) := by
  by_cases hk : 0 ≤ k
  · obtain ⟨k, rfl⟩ := Int.eq_ofNat_of_zero_le hk
    rw [zpow_natCast, Numeral.magnitude_pos hn (by omega)]
    exact nearest_ofScientific_mul hn (by omega)
  · obtain ⟨k, rfl⟩ : ∃ j : ℕ, k = -(j : ℤ) := ⟨k.natAbs, by omega⟩
    rw [zpow_neg, zpow_natCast, ← div_eq_mul_inv, Numeral.magnitude_neg hn (by omega) (by omega)]
    exact nearest_ofScientific_div hn (by omega) (by omega)

/-- **A numeral is converted to the number in whose interval it lies.** -/
theorem RoundsTo.magnitude_eq {n : ℕ} {k : ℤ} (h : RoundsTo m q (n * 10 ^ k)) (hparts : Parts m q)
    (hn : 0 < n) :
    Numeral.magnitude n k = .ofModel (.pack (.finite .positive m q hparts.pos)) := by
  obtain ⟨u, hu, hmagnitude⟩ := nearest_magnitude hn (h.le_range hparts hn) (h.range_le hparts)
  rw [hmagnitude, h.eq_of_isRounded hparts hu]

end MessageSelector.Decimal.FloatModel
