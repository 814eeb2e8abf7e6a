import MessageSelector.Proofs.FloatReading
import MessageSelector.Proofs.Overflow
import MessageSelector.Proofs.TermReading

/-!
# Numerals in range

The reader of terms converts every numeral that it can take apart, whatever its exact value is. A
numeral is in range (`InRange`) if this value, its sign aside, is below the bound at which numbers
are rounded to infinity, and then its number is finite (`isFinite_iff_inRange`). Integers that fit a
word always are, and a word above the signed range is converted to a finite number.
-/

namespace MessageSelector

/-! ## Digits behind a sign -/

namespace Decimal

open FloatModel

/-- The digits are read in the same way behind either sign. -/
theorem Numeral.unsigned?_sign (negative : Bool) (cs : List Char) : unsigned? negative cs =
    (unsigned? false cs).map fun n => ⟨negative, n.significand, n.exponent⟩ := by
  simp only [unsigned?]
  split
  all_goals
    split
    · rfl
    · rw [Option.map_map]
      rfl

theorem denotes_of_unsigned? {negative : Bool} {cs : List Char} {n : Numeral}
    (h : Numeral.unsigned? negative cs = some n) :
    Denotes cs (n.significand * 10 ^ n.exponent) := by
  rw [Numeral.unsigned?_sign] at h
  obtain ⟨m, hm, rfl⟩ := Option.map_eq_some_iff.1 h
  intro sign
  rw [Numeral.unsigned?_sign, hm]
  exact ⟨_, rfl, rfl⟩

theorem Denotes.unique {cs : List Char} {y z : ℚ} (hy : Denotes cs y) (hz : Denotes cs z) :
    y = z := by
  obtain ⟨m, hm, rfl⟩ := hy false
  obtain ⟨n, hn, rfl⟩ := hz false
  cases hm.symm.trans hn
  rfl

theorem Numeral.isFinite_toFloat (n : Numeral) :
    n.toFloat.isFinite ↔ (n.significand : ℚ) * 10 ^ n.exponent < overflowBound := by
  rw [← isFinite_magnitude_iff, toFloat]
  split
  · rw [isFinite_neg]
  · rfl

/-- Digits without a sign that fit an unsigned word. -/
theorem IsDigits.denotes {cs : List Char} (h : IsDigits cs) (hlt : spelled cs < 2 ^ 64) :
    ∃ y < overflowBound, Denotes cs y := by
  have hstop : ∀ c, ([] : List Char).head? = some c → c.isDigit = false ∧ c ≠ '.' := nofun
  have hread := Numeral.unsigned?_whole h.all h.ne_nil hstop rfl false
  rw [List.append_nil, ofDigits_eq_spelled h.all] at hread
  refine ⟨_, ?_, denotes_of_unsigned? hread⟩
  have hvalue : (spelled cs : ℚ) < 2 ^ (64 : ℤ) := by exact_mod_cast hlt
  rw [zpow_zero, mul_one]
  exact hvalue.trans_le (two_zpow_le_overflowBound (by decide))

/-- A floating point numeral, with any sign in front, is read as a finite number if its exact value
is below the bound. -/
theorem Floating.isFinite_iff {cs : List Char} {m : ℕ} {e : ℤ} (h : Floating cs m e)
    (negative : Bool) :
    (Numeral.toFloat ⟨negative, m, e⟩).isFinite ↔ ∃ y < overflowBound, Denotes cs y := by
  have hdenotes := denotes_of_unsigned? (h.unsigned?_eq false)
  rw [Numeral.isFinite_toFloat]
  constructor
  · exact fun hlt => ⟨_, hlt, hdenotes⟩
  · rintro ⟨y, hlt, hy⟩
    rwa [hy.unique hdenotes] at hlt

end Decimal

/-! ## Numerals of terms -/

namespace Term

open Decimal (Denotes Signed overflowBound)

/-- A numeral whose exact value, its sign aside, is below the bound of the finite numbers. -/
inductive InRange : List Char → Prop
  | plain {cs : List Char} : (∃ y < overflowBound, Denotes cs y) → InRange cs
  | minus {cs : List Char} : (∃ y < overflowBound, Denotes cs y) → InRange ('-' :: cs)

theorem inRange_minus {cs : List Char} :
    InRange ('-' :: cs) ↔ ∃ y < overflowBound, Denotes cs y := by
  refine ⟨fun h => ?_, .minus⟩
  cases h with
  | plain hy =>
    obtain ⟨y, -, hy⟩ := hy
    exact absurd rfl (hy.head_ne_sign '-' rfl).1
  | minus hy => exact hy

theorem inRange_plain {cs : List Char} (h : cs.head? ≠ some '-') :
    InRange cs ↔ ∃ y < overflowBound, Denotes cs y := by
  refine ⟨fun hcs => ?_, .plain⟩
  cases hcs with
  | plain hy => exact hy
  | minus => exact absurd rfl h

theorem inRange_of_signed {cs : List Char} {n : Int64} (hcs : NumeralShape cs)
    (h : Signed cs n.toInt) : InRange cs := by
  have hmin : Int64.minValue.toInt = -2 ^ 63 := rfl
  have hmax : Int64.maxValue.toInt = 2 ^ 63 - 1 := rfl
  obtain ⟨hlow, hhigh⟩ := Decimal.inInt64_toInt n
  generalize n.toInt = z at h hlow hhigh
  cases h with
  | plain hdigits => exact .plain (hdigits.denotes (by omega))
  | plus =>
    cases hcs with
    | plain hbody => exact absurd rfl (hbody.head_ne_sign '+' rfl).2
  | minus hdigits => exact .minus (hdigits.denotes (by omega))

/-- **A numeral is in range if and only if its number is finite**, which integers always are. -/
theorem isFinite_iff_inRange {cs : List Char} {t : Term} (hcs : NumeralShape cs)
    (ht : NumberText cs t) : (∀ x, t = .float x → x.isFinite) ↔ InRange cs := by
  have hfloat {x : Float} : (∀ y, float x = .float y → y.isFinite) ↔ x.isFinite :=
    ⟨fun h => h x rfl, fun h y hy => Term.float.inj hy ▸ h⟩
  cases ht with
  | float h =>
    rw [hfloat, h.isFinite_iff, inRange_plain fun hminus => (h.head_ne_sign '-' hminus).1 rfl]
  | negative h => rw [hfloat, h.isFinite_iff, inRange_minus]
  | int h => exact iff_of_true nofun (inRange_of_signed hcs h)
  | word h _ hlt =>
    obtain ⟨word, -, hvalue⟩ := Decimal.fitUInt64_of_lt hlt
    rw [hfloat, ← hvalue]
    exact iff_of_true (Decimal.FloatModel.isFinite_ofNat word) (.plain (h.denotes hlt))

end Term

end MessageSelector
