import MessageSelector.Proofs.Conversion

/-!
# Overflow

Rounding leaves the exponent of a number as great as it is; the number becomes infinite when it is
packed, if its exponent does not fit the word. So an exact number is converted to a finite one if
and only if it is below the middle between the greatest finite number and the next power of two
(`overflowBound`, `isFinite_magnitude_iff`): the middle itself is rounded to the power of two, whose
mantissa is even.
-/

namespace MessageSelector.Decimal

open Float.Model (UnpackedFloat)
open Float.Model.UnpackedFloat (ExtendedMantissa Sign)

/-- The least exact number that is not converted to a finite one. -/
def overflowBound : ℚ :=
  2 ^ 1024 - 2 ^ 970

namespace FloatModel

/-! ## Exponents that do not fit -/

theorem isFinite_ofModel_of_canonical {u : UnpackedFloat} (h : Canonical u) :
    (Float.ofModel (.pack u)).isFinite = u.isFinite := by
  show (Float.ofModel (.pack u)).toModel.unpack.isFinite = u.isFinite
  rw [unpack_ofModel_pack h]

/-- A number with too great an exponent is packed as infinity. -/
theorem pack_overflow (s : Sign) {m : ℕ} {q : ℤ} (hm : 0 < m) (hq : 971 < q) :
    UnpackedFloat.pack .binary64 (.finite s m q hm) =
      UnpackedFloat.pack .binary64 (.infinity s) := by
  have hfull : 2 ^ 11 ≤ (q + 1023 + 52).toNat + 1 := by omega
  exact if_pos hfull

/-- A number that has its place is finite if its exponent fits. -/
theorem isFinite_ofModel_finite {m : ℕ} {q : ℤ} (hm : 0 < m) (hlt : m < 2 ^ 53)
    (hleast : -1074 ≤ q) (hfull : -1074 < q → 2 ^ 52 ≤ m) :
    (Float.ofModel (.pack (.finite .positive m q hm))).isFinite ↔ q ≤ 971 := by
  by_cases hq : q ≤ 971
  · have hparts : Parts m q := ⟨hm, hlt, hleast, hq, hfull⟩
    exact iff_of_true (isFinite_ofModel_of_canonical (hparts.canonical .positive)) hq
  · have hinfinite : Float.ofModel (.pack (.finite .positive m q hm)) =
        .ofModel (.pack (.infinity .positive)) := by
      simp only [Float.Model.pack, pack_overflow .positive hm (not_le.1 hq)]
    rw [hinfinite, isFinite_ofModel_of_canonical (.infinity .positive)]
    exact iff_of_false Bool.false_ne_true hq

/-- Whether a rounded mantissa at its place is finite. -/
theorem isFinite_placed {r : ℕ} {t : ℤ} (hr : r ≤ 2 ^ 53) (hleast : -1074 ≤ t)
    (hfull : -1074 < t → 2 ^ 52 ≤ r) :
    (Float.ofModel (.pack (placed r t))).isFinite ↔ t < 971 ∨ t = 971 ∧ r ≠ 2 ^ 53 := by
  unfold placed
  split
  · next hpower =>
    rw [isFinite_ofModel_finite _ (by decide) (by omega) fun _ => le_refl _]
    omega
  split
  · next hzero =>
    have ht : t = -1074 := by
      by_contra hne
      have hpos := hfull (by omega)
      omega
    rw [isFinite_ofModel_of_canonical (.zero .positive)]
    exact iff_of_true rfl (.inl (by omega))
  · next hpower hzero =>
    rw [isFinite_ofModel_finite _ (lt_of_le_of_ne hr hpower) hleast hfull]
    omega

/-! ## The bound -/

/-- Counted in the greatest places, the bound is half a place below a power of two. -/
theorem overflowBound_eq : overflowBound = (2 ^ 53 - 1 / 2) * 2 ^ (971 : ℤ) := by
  have hplace : (2 : ℚ) ^ (971 : ℤ) = 2 ^ (970 : ℤ) * 2 ^ 1 := two_zpow_add 970 1
  have hpower : (2 : ℚ) ^ (1024 : ℤ) = 2 ^ (970 : ℤ) * 2 ^ 54 := two_zpow_add 970 54
  have hbound : overflowBound = 2 ^ (1024 : ℤ) - 2 ^ (970 : ℤ) :=
    (congrArg₂ _ (zpow_natCast 2 1024) (zpow_natCast 2 970)).symm
  rw [hbound, hplace, hpower]
  generalize (2 : ℚ) ^ (970 : ℤ) = a
  ring

theorem two_zpow_le_overflowBound {z : ℤ} (h : z ≤ 1023) : (2 : ℚ) ^ z ≤ overflowBound := by
  have hpower : (2 : ℚ) ^ (1023 : ℤ) = 2 ^ (971 : ℤ) * 2 ^ 52 := two_zpow_add 971 52
  calc (2 : ℚ) ^ z ≤ 2 ^ (1023 : ℤ) := zpow_le_zpow_right₀ one_le_two h
    _ = 2 ^ 52 * 2 ^ (971 : ℤ) := by rw [hpower, mul_comm]
    _ ≤ (2 ^ 53 - 1 / 2) * 2 ^ (971 : ℤ) :=
      mul_le_mul_of_nonneg_right (by norm_num) (two_zpow_pos _).le
    _ = overflowBound := overflowBound_eq.symm

theorem overflowBound_lt_two_zpow {z : ℤ} (h : 1024 ≤ z) : overflowBound < 2 ^ z := by
  have hpower : (2 : ℚ) ^ (1024 : ℤ) = 2 ^ (971 : ℤ) * 2 ^ 53 := two_zpow_add 971 53
  calc overflowBound = (2 ^ 53 - 1 / 2) * 2 ^ (971 : ℤ) := overflowBound_eq
    _ < 2 ^ 53 * 2 ^ (971 : ℤ) := mul_lt_mul_of_pos_right (by norm_num) (two_zpow_pos _)
    _ = 2 ^ (1024 : ℤ) := by rw [hpower, mul_comm]
    _ ≤ 2 ^ z := zpow_le_zpow_right₀ one_le_two h

/-- **A rounded number is finite if and only if the exact number is below the bound.** -/
theorem IsRounded.isFinite_iff {y : ℚ} {u : UnpackedFloat} (h : IsRounded y u) :
    (Float.ofModel (.pack u)).isFinite ↔ y < overflowBound := by
  obtain ⟨hleast, htop, hfull, hrepresents⟩ := h
  rename_i em t
  obtain ⟨hlow, hhigh⟩ := hrepresents.roundedMantissa_near
  have hmax := hrepresents.roundedMantissa_le htop
  have hfull' : -1074 < t → 2 ^ 52 ≤ em.roundedMantissa :=
    fun ht => hrepresents.le_roundedMantissa (hfull.resolve_left (by omega))
  rw [isFinite_placed hmax hleast hfull']
  rcases lt_trichotomy t 971 with ht | rfl | ht
  · refine iff_of_true (.inl ht) (lt_of_lt_of_le htop ?_)
    exact two_zpow_le_overflowBound (by omega)
  · -- At the greatest place only the next power of two is too great.
    have hplaces : y < overflowBound ↔ y / 2 ^ (971 : ℤ) < 2 ^ 53 - 1 / 2 := by
      rw [overflowBound_eq, div_lt_iff₀ (two_zpow_pos _)]
    rw [hplaces]
    generalize y / 2 ^ (971 : ℤ) = z at hrepresents hlow hhigh
    constructor
    · rintro (h | ⟨-, hne⟩)
      · omega
      · by_contra hge
        refine hne (hrepresents.roundedMantissa_eq ?_ ?_ fun hodd => absurd hodd (by decide))
        · push_cast
          exact not_lt.1 hge
        · have hle : (em.roundedMantissa : ℚ) ≤ (2 ^ 53 : ℕ) := by exact_mod_cast hmax
          exact hhigh.trans (add_le_add_left hle _)
    · intro hlt
      refine .inr ⟨rfl, fun hpower => ?_⟩
      rw [hpower] at hlow
      push_cast at hlow
      linarith
  · refine iff_of_false (by omega) (not_lt.2 ?_)
    have hpower := hfull.resolve_left (by omega)
    exact le_trans (overflowBound_lt_two_zpow (by omega)).le hpower

theorem Nearest.isFinite_iff {y : ℚ} {x : Float} (h : Nearest y x) :
    x.isFinite ↔ y < overflowBound := by
  obtain ⟨u, hu, rfl⟩ := h
  exact hu.isFinite_iff

/-! ## Numerals -/

theorem overflowBound_pos : 0 < overflowBound :=
  lt_of_lt_of_le (two_zpow_pos 0) (two_zpow_le_overflowBound (by decide))

/-- Powers of ten above the converted ones, also times a number of digits. -/
theorem overflowBound_le {n : ℕ} {k : ℤ} (hn : 0 < n) (hk : 400 < k) :
    overflowBound ≤ n * 10 ^ k := by
  have hone : (1 : ℚ) ≤ n := by exact_mod_cast hn
  calc overflowBound ≤ 2 ^ (3 * (400 : ℕ) : ℤ) := (overflowBound_lt_two_zpow (by decide)).le
    _ ≤ 10 ^ ((400 : ℕ) : ℤ) := two_zpow_le_ten_zpow 400
    _ ≤ 10 ^ k := zpow_le_zpow_right₀ (by norm_num) (by omega)
    _ ≤ n * 10 ^ k := le_mul_of_one_le_left (zpow_pos (by norm_num) k).le hone

/-- Powers of ten below the converted ones, also times as many digits. -/
theorem lt_overflowBound {n : ℕ} {k : ℤ} (hk : k < -400 - (n.log2 : ℤ)) :
    n * 10 ^ k < overflowBound := by
  have hdigits : (n : ℚ) < 10 ^ ((n.log2 : ℤ) + 1) := by
    have hlt : n < 10 ^ (n.log2 + 1) :=
      Nat.lt_log2_self.trans_le (Nat.pow_le_pow_left (by decide) _)
    exact_mod_cast hlt
  calc (n : ℚ) * 10 ^ k < 10 ^ ((n.log2 : ℤ) + 1) * 10 ^ k :=
        mul_lt_mul_of_pos_right hdigits (zpow_pos (by norm_num) k)
    _ = 10 ^ ((n.log2 : ℤ) + 1 + k) := (zpow_add₀ (by norm_num) _ _).symm
    _ ≤ 10 ^ (0 : ℤ) := zpow_le_zpow_right₀ (by norm_num) (by omega)
    _ = 2 ^ (0 : ℤ) := by rw [zpow_zero, zpow_zero]
    _ ≤ overflowBound := two_zpow_le_overflowBound (by decide)

/-- **A numeral is converted to a finite number if and only if its exact value is below the
bound.** -/
theorem isFinite_magnitude_iff (n : ℕ) (k : ℤ) :
    (Numeral.magnitude n k).isFinite ↔ (n : ℚ) * 10 ^ k < overflowBound := by
  have hzero : (0 : Float).isFinite = true := by decide +kernel
  have hinfinite : Numeral.infinity.isFinite = false := by decide +kernel
  by_cases hn : n = 0
  · rw [Numeral.magnitude, if_pos hn, hn, Nat.cast_zero, zero_mul]
    exact iff_of_true hzero overflowBound_pos
  have hpos := Nat.pos_of_ne_zero hn
  by_cases hgreat : 400 < k
  · rw [Numeral.magnitude, if_neg hn, if_pos hgreat, hinfinite]
    exact iff_of_false Bool.false_ne_true (not_lt.2 (overflowBound_le hpos hgreat))
  by_cases hsmall : k < -400 - (n.log2 : ℤ)
  · rw [Numeral.magnitude, if_neg hn, if_neg hgreat, if_pos hsmall]
    exact iff_of_true hzero (lt_overflowBound hsmall)
  · exact (nearest_magnitude hpos (not_lt.1 hgreat) (not_lt.1 hsmall)).isFinite_iff

/-- An unsigned word is converted to a finite number. -/
theorem isFinite_ofNat (n : UInt64) : (Float.ofNat n.toNat).isFinite := by
  rcases Nat.eq_zero_or_pos n.toNat with hzero | hpos
  · rw [hzero]
    decide +kernel
  have hvalue := (isFinite_magnitude_iff n.toNat (0 : ℕ)).2 (by
    have hlt : (n.toNat : ℚ) < 2 ^ (64 : ℤ) := by exact_mod_cast n.toNat_lt
    rw [Nat.cast_zero, zpow_zero, mul_one]
    exact hlt.trans_le (two_zpow_le_overflowBound (by decide)))
  rwa [Numeral.magnitude_pos hpos (by decide)] at hvalue

end FloatModel

end MessageSelector.Decimal
