import MessageSelector.Proofs.Conversion
import MessageSelector.Proofs.Digits

/-!
# The shortest digits of a number

The digits that are searched for a number are in the number's interval (`roundsTo_shortest`). A grid
is taken if one of its points next to the number is in the interval; after seventeen grids the
points are closer together than a quarter of the last place, so the point below the number is in the
interval too (`roundsTo_of_lastGrid`).
-/

namespace MessageSelector.Decimal

open FloatModel
open Float.Model (UnpackedFloat)
open Float.Model.UnpackedFloat (Sign unpackExponent unpackMantissa)

/-! ## The first digit -/

theorem pow_length_natural {n : ℕ} (hn : 0 < n) :
    10 ^ ((natural n).length - 1) ≤ n ∧ n < 10 ^ (natural n).length := by
  induction n using Nat.strongRecOn with
  | ind n ih =>
    rw [natural]
    split
    · next hlt => exact ⟨hn, hlt⟩
    · next hge =>
      obtain ⟨hlow, hhigh⟩ := ih (n / 10) (by omega) (by omega)
      have hpos := List.length_pos_iff.2 (natural_ne_nil (n / 10))
      obtain ⟨k, hk⟩ : ∃ k, (natural (n / 10)).length = k + 1 :=
        ⟨(natural (n / 10)).length - 1, by omega⟩
      rw [List.length_append, List.length_singleton, Nat.add_sub_cancel]
      rw [hk] at hlow hhigh ⊢
      rw [Nat.add_sub_cancel] at hlow
      rw [Nat.pow_succ] at hhigh ⊢
      rw [Nat.pow_succ, Nat.pow_succ]
      omega

/-! ## The parts of a number -/

namespace Binary

/-- A number of these parts. -/
def ofParts (m : ℕ) (q : ℤ) : Binary :=
  ⟨m, q, m = 2 ^ 52 ∧ -1074 < q⟩

/-- The fields of a number's word hold its parts. -/
theorem ofBits_eq {x : Float} {s : Sign} {m : ℕ} {q : ℤ} {hm : 0 < m}
    (h : x.toModel.unpack = .finite s m q hm) : ofBits x.toBits = ofParts m q := by
  obtain ⟨⟨bits, hvalid⟩⟩ := x
  have hword : UnpackedFloat.unpack .binary64 bits.toBitVec = .finite s m q hm := h
  have hfraction : bits.toNat % Nat.pow 2 52 = (@unpackMantissa .binary64 bits.toBitVec).toNat :=
    (toNat_unpackMantissa _).symm
  have hfield : bits.toNat / Nat.pow 2 52 % Nat.pow 2 11 =
      (@unpackExponent .binary64 bits.toBitVec).toNat := (toNat_unpackExponent _).symm
  have hmantissa : (@unpackMantissa .binary64 bits.toBitVec).toNat < 2 ^ 52 := BitVec.isLt _
  show ofBits bits = ofParts m q
  unfold ofBits ofParts
  rw [hfraction, hfield]
  by_cases hinf : @unpackExponent .binary64 bits.toBitVec = -1#11
  · simp only [UnpackedFloat.unpack] at hword
    rw [if_pos hinf] at hword
    split at hword <;> cases hword
  by_cases hexp : @unpackExponent .binary64 bits.toBitVec = 0#11
  · have hzero : ¬ @unpackMantissa .binary64 bits.toBitVec = 0#52 := by
      intro hzero
      simp only [UnpackedFloat.unpack] at hword
      rw [if_neg hinf, if_pos hexp, dif_pos hzero] at hword
      cases hword
    have hpos : 0 < (@unpackMantissa .binary64 bits.toBitVec).toNat :=
      Nat.pos_of_ne_zero fun h0 => hzero (BitVec.eq_of_toNat_eq h0)
    rw [unpack_subnormal hexp hpos] at hword
    cases hword
    rw [hexp]
    simp
  · have hne : (@unpackExponent .binary64 bits.toBitVec).toNat ≠ 0 :=
      fun h0 => hexp (BitVec.eq_of_toNat_eq h0)
    rw [unpack_normal hinf hexp] at hword
    cases hword
    have hnarrow (f e : ℕ) : (f = 0 ∧ 1 < e) ↔
        2 ^ 52 + f = 2 ^ 52 ∧ -1074 < (e : ℤ) - 1075 := by omega
    simp only [if_neg hne, hnarrow]
    rfl

/-! ## The number and the ends of its interval -/

section

variable {m : ℕ} {q : ℤ}

theorem scale_pos (b : Binary) : 0 < b.scale :=
  Nat.two_pow_pos _

theorem unit_pos (b : Binary) : 0 < b.unit :=
  Nat.two_pow_pos _

/-- A quarter of the last place. -/
theorem unit_div_scale (b : Binary) : (b.unit : ℚ) / b.scale = 2 ^ (b.exponent - 2) := by
  rw [zpow_eq_div two_ne_zero, neg_sub]
  unfold unit scale
  rw [Nat.pow_eq, Nat.pow_eq]
  push_cast
  rfl

theorem value_div_scale (b : Binary) :
    (b.value : ℚ) / b.scale = 4 * b.mantissa * 2 ^ (b.exponent - 2) := by
  rw [← unit_div_scale, value]
  push_cast
  rw [mul_div_assoc]

theorem denominator_pos (b : Binary) (k : ℤ) :
    (0 : ℚ) < (b.scale * Nat.pow 10 (-k).toNat : ℕ) :=
  Nat.cast_pos.2 (Nat.mul_pos b.scale_pos (Nat.pow_pos (by decide)))

/-- A multiple of a quarter and a decimal over one denominator. -/
theorem quarters_decimal (b : Binary) (a d : ℕ) (k : ℤ) :
    (a : ℚ) * 2 ^ (b.exponent - 2) =
        (a * b.unit * Nat.pow 10 (-k).toNat : ℕ) / (b.scale * Nat.pow 10 (-k).toNat : ℕ) ∧
      (d : ℚ) * 10 ^ k =
        (d * Nat.pow 10 k.toNat * b.scale : ℕ) / (b.scale * Nat.pow 10 (-k).toNat : ℕ) := by
  have hscale : (b.scale : ℚ) ≠ 0 := Nat.cast_ne_zero.2 b.scale_pos.ne'
  have hten : (10 : ℚ) ^ (-k).toNat ≠ 0 := by positivity
  rw [Nat.pow_eq, Nat.pow_eq, ← unit_div_scale, @zpow_eq_div 10 (by norm_num)]
  push_cast
  constructor
  · rw [mul_div_mul_right _ _ hten, mul_div_assoc]
  · rw [mul_comm (b.scale : ℚ), mul_div_mul_right _ _ hscale, mul_div_assoc]

theorem quarters_le_iff (b : Binary) (a d : ℕ) (k : ℤ) :
    (a : ℚ) * 2 ^ (b.exponent - 2) ≤ d * 10 ^ k ↔
      a * b.unit * Nat.pow 10 (-k).toNat ≤ d * Nat.pow 10 k.toNat * b.scale := by
  obtain ⟨hquarters, hdecimal⟩ := b.quarters_decimal a d k
  rw [hquarters, hdecimal, div_le_div_iff_of_pos_right (b.denominator_pos k), Nat.cast_le]

theorem le_quarters_iff (b : Binary) (a d : ℕ) (k : ℤ) :
    (d : ℚ) * 10 ^ k ≤ a * 2 ^ (b.exponent - 2) ↔
      d * Nat.pow 10 k.toNat * b.scale ≤ a * b.unit * Nat.pow 10 (-k).toNat := by
  obtain ⟨hquarters, hdecimal⟩ := b.quarters_decimal a d k
  rw [hquarters, hdecimal, div_le_div_iff_of_pos_right (b.denominator_pos k), Nat.cast_le]

/-- A decimal that a number covers is in the number's interval. -/
theorem roundsTo_of_covers (hm : 0 < m) {d : ℕ} {k : ℤ} (h : (ofParts m q).covers d k) :
    RoundsTo m q (d * 10 ^ k) := by
  have hlow : (ofParts m q).low = (4 * m - reach m q) * (ofParts m q).unit := by
    unfold low reach ofParts
    simp only [decide_eq_true_eq]
  have hcast : ((4 * m - reach m q : ℕ) : ℚ) = 4 * m - reach m q := by
    have hreach : reach m q ≤ 4 * m := by
      unfold reach
      split <;> omega
    rw [Nat.cast_sub hreach, Nat.cast_mul]
    rfl
  have hcast' : ((4 * m + 2 : ℕ) : ℚ) = 4 * m + 2 := by
    push_cast
    rfl
  have hlower := (ofParts m q).quarters_le_iff (4 * m - reach m q) d k
  have hlower' := lt_iff_lt_of_le_iff_le ((ofParts m q).le_quarters_iff (4 * m - reach m q) d k)
  have hupper := (ofParts m q).le_quarters_iff (4 * m + 2) d k
  have hupper' := lt_iff_lt_of_le_iff_le ((ofParts m q).quarters_le_iff (4 * m + 2) d k)
  have hexponent : (ofParts m q).exponent = q := rfl
  have hmantissa : (ofParts m q).mantissa = m := rfl
  rw [hexponent, hcast] at hlower hlower'
  rw [hexponent, hcast'] at hupper hupper'
  unfold covers at h
  simp only [hlow, high, hmantissa] at h
  split at h
  · next heven =>
    rw [Bool.and_eq_true, decide_eq_true_eq, decide_eq_true_eq, ← hlower, ← hupper] at h
    exact ⟨h.1, h.2, fun hodd => absurd hodd (by omega)⟩
  · rw [Bool.and_eq_true, decide_eq_true_eq, decide_eq_true_eq, ← hlower', ← hupper'] at h
    exact ⟨h.1.le, h.2.le, fun _ => h⟩

/-! ## The search -/

/-- The search ends with a decimal that is covered, or on the last grid. -/
theorem search_cases (b : Binary) (more : ℕ) (k : ℤ) :
    (b.covers (b.search more k).digits (b.search more k).exponent = true) ∨
      b.search more k = ⟨(b.neighbours (k - more)).1, k - more⟩ := by
  induction more generalizing k with
  | zero =>
    refine .inr ?_
    rw [Nat.cast_zero, sub_zero]
    rfl
  | succ more ih =>
    unfold search
    cases hgrid : b.onGrid? k with
    | none =>
      have hk : k - (more + 1 : ℕ) = k - 1 - more := by
        push_cast
        ring
      rw [hk]
      exact ih (k - 1)
    | some d =>
      refine .inl ?_
      unfold onGrid? at hgrid
      simp only at hgrid
      split at hgrid
      · next hbelow habove =>
        split at hgrid
        · cases hgrid
          exact habove
        · cases hgrid
          exact hbelow
      · next hbelow _ =>
        cases hgrid
        exact hbelow
      · next _ habove =>
        cases hgrid
        exact habove
      · cases hgrid

/-- The power of ten of the first digit does not exceed the number. -/
theorem pow_leading_le (b : Binary) (hpos : 0 < b.value) :
    (10 : ℚ) ^ b.leading ≤ b.value / b.scale := by
  have hscale : (0 : ℚ) < b.scale := Nat.cast_pos.2 b.scale_pos
  unfold leading
  split
  · next hle =>
    have hquotient : 0 < b.value / b.scale := Nat.div_pos hle b.scale_pos
    obtain ⟨hlow, -⟩ := pow_length_natural hquotient
    have hlength := List.length_pos_iff.2 (natural_ne_nil (b.value / b.scale))
    have hexponent : ((natural (b.value / b.scale)).length : ℤ) - 1 =
        ((natural (b.value / b.scale)).length - 1 : ℕ) := by omega
    rw [hexponent, zpow_natCast]
    calc (10 : ℚ) ^ ((natural (b.value / b.scale)).length - 1)
        ≤ (b.value / b.scale : ℕ) := by exact_mod_cast hlow
      _ ≤ b.value / b.scale := Nat.cast_div_le
  · next hlt =>
    have hquotient : (b.scale - 1) / b.value < 10 ^ (natural ((b.scale - 1) / b.value)).length := by
      rcases Nat.eq_zero_or_pos ((b.scale - 1) / b.value) with hzero | hpos
      · rw [hzero]
        exact Nat.pow_pos (by decide)
      · exact (pow_length_natural hpos).2
    rw [Nat.div_lt_iff_lt_mul hpos] at hquotient
    have hle : b.scale ≤ 10 ^ (natural ((b.scale - 1) / b.value)).length * b.value := by omega
    rw [zpow_neg, zpow_natCast, inv_le_iff_one_le_mul₀ (by positivity), mul_comm, ← mul_div_assoc,
      one_le_div hscale]
    exact_mod_cast hle

/-- A number is between its neighbours. -/
theorem between_neighbours (b : Binary) (k : ℤ) :
    ((b.neighbours k).1 : ℚ) * 10 ^ k ≤ b.value / b.scale ∧
      (b.value : ℚ) / b.scale < ((b.neighbours k).1 + 1) * 10 ^ k := by
  have hscale : (b.scale : ℚ) ≠ 0 := Nat.cast_ne_zero.2 b.scale_pos.ne'
  have hten : (0 : ℚ) < 10 ^ k := zpow_pos (by norm_num) k
  have hden : 0 < b.scale * Nat.pow 10 k.toNat := Nat.mul_pos b.scale_pos (Nat.pow_pos (by decide))
  have hnumber : (b.value : ℚ) / b.scale =
      (b.value * Nat.pow 10 (-k).toNat : ℕ) / (b.scale * Nat.pow 10 k.toNat : ℕ) * 10 ^ k := by
    rw [@zpow_eq_div 10 (by norm_num), Nat.pow_eq, Nat.pow_eq]
    push_cast
    field_simp
  unfold neighbours
  rw [hnumber]
  exact ⟨mul_le_mul_of_nonneg_right Nat.cast_div_le hten.le,
    mul_lt_mul_of_pos_right (div_lt_quotient_add_one _ hden) hten⟩

/-- On the last grid the point below the number is in the number's interval. -/
theorem roundsTo_of_lastGrid (hparts : Parts m q) {k : ℤ} (hk : k = (ofParts m q).leading - 17) :
    RoundsTo m q (((ofParts m q).neighbours k).1 * 10 ^ k) := by
  have hm : (0 : ℚ) < m := Nat.cast_pos.2 hparts.pos
  have hquarter := two_zpow_pos (q - 2)
  have hnumber : ((ofParts m q).value : ℚ) / (ofParts m q).scale = 4 * m * 2 ^ (q - 2) :=
    (ofParts m q).value_div_scale
  have hpos : 0 < (ofParts m q).value :=
    Nat.mul_pos (Nat.mul_pos (by decide) hparts.pos) (ofParts m q).unit_pos
  have hleading := (ofParts m q).pow_leading_le hpos
  have hten : (0 : ℚ) < 10 ^ k := zpow_pos (by norm_num) k
  -- The points of the grid are less than a quarter of the last place apart.
  have hgrid : (10 : ℚ) ^ k < 2 ^ (q - 2) := by
    have hshift : (10 : ℚ) ^ (ofParts m q).leading = 10 ^ k * 10 ^ 17 := by
      rw [← zpow_natCast, ← zpow_add₀ (by norm_num), hk]
      congr 1
      omega
    have hm' : (m : ℚ) < 2 ^ 53 := by exact_mod_cast hparts.lt
    rw [hshift, hnumber] at hleading
    nlinarith
  obtain ⟨hlow, hhigh⟩ := (ofParts m q).between_neighbours k
  have hreach : (1 : ℚ) ≤ reach m q := by
    unfold reach
    split <;> norm_num
  rw [hnumber] at hlow hhigh
  have hlower : (4 * m - reach m q) * 2 ^ (q - 2) <
      (((ofParts m q).neighbours k).1 : ℚ) * 10 ^ k := by nlinarith
  have hupper : (((ofParts m q).neighbours k).1 : ℚ) * 10 ^ k < (4 * m + 2) * 2 ^ (q - 2) := by
    nlinarith
  exact ⟨hlower.le, hupper.le, fun _ => ⟨hlower, hupper⟩⟩

/-- **The digits that are searched are in the number's interval.** -/
theorem roundsTo_shortest (hparts : Parts m q) :
    RoundsTo m q ((ofParts m q).shortest.digits * 10 ^ (ofParts m q).shortest.exponent) := by
  rcases (ofParts m q).search_cases 17 (ofParts m q).leading with h | h
  · exact roundsTo_of_covers hparts.pos h
  · unfold shortest
    rw [h]
    exact roundsTo_of_lastGrid hparts rfl

end

end Binary

/-- Moving trailing zeros into the exponent does not change a decimal. -/
theorem Digits.trim_value (d : Digits) :
    (d.trim.digits : ℚ) * 10 ^ d.trim.exponent = d.digits * 10 ^ d.exponent := by
  induction d using Digits.trim.induct with
  | case1 d h ih =>
    rw [trim, dif_pos h, ih, zpow_add_one₀ (by norm_num), mul_comm ((10 : ℚ) ^ d.exponent),
      ← mul_assoc]
    have hdigits : d.digits / 10 * 10 = d.digits := by omega
    congr 1
    exact_mod_cast hdigits
  | case2 d h => rw [trim, dif_neg h]

/-- The shortest digits of a finite number that is not zero are in its interval. -/
theorem roundsTo_shortest {x : Float} {s : Sign} {m : ℕ} {q : ℤ} {hm : 0 < m}
    (h : x.toModel.unpack = .finite s m q hm) (hparts : Parts m q) :
    RoundsTo m q ((shortest x).digits * 10 ^ (shortest x).exponent) := by
  unfold shortest
  rw [Binary.ofBits_eq h, Digits.trim_value]
  exact Binary.roundsTo_shortest hparts

end MessageSelector.Decimal
