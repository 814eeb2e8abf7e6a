import Mathlib
import MessageSelector.Decimal.Numeral
import MessageSelector.Decimal.Shortest

/-!
# Floating point numbers unpacked

A floating point number is packed into a word of sign, exponent and mantissa, and every operation
unpacks its operands and packs its result. Unpacking and packing again changes nothing
(`unpack_pack`), and what is unpacked is canonical (`Canonical`): the mantissa has 53 bits, or the
exponent is the least one. So numbers are the same if they are unpacked into the same
(`eq_of_unpack`), and comparing them for equality decides this, zeros of both signs and the
undefined number apart (`eq_of_beq`).
-/

namespace MessageSelector.Decimal

open Float.Model (Format UnpackedFloat)
open Float.Model.UnpackedFloat (Sign packComponents unpackSign unpackExponent unpackMantissa)

namespace FloatModel

/-! ## Fields of a word -/

theorem toBitVec_ofBitVec (v : BitVec 1) : (Sign.ofBitVec v).toBitVec = v := by
  revert v
  decide

theorem ofBitVec_toBitVec (s : Sign) : Sign.ofBitVec s.toBitVec = s := by
  cases s <;> rfl

theorem unpackSign_packComponents (sign : Sign) (exponent : BitVec 11) (mantissa : BitVec 52) :
    unpackSign (packComponents .binary64 sign exponent mantissa) = sign.toBitVec := by
  simp only [packComponents, unpackSign, BitVec.extractLsb]
  ext i hi
  grind

/-- A word is put together again from its fields. -/
theorem packComponents_unpack (b : BitVec 64) :
    packComponents .binary64 (Sign.ofBitVec (@unpackSign .binary64 b)) (@unpackExponent .binary64 b)
      (@unpackMantissa .binary64 b) = b := by
  simp only [packComponents, toBitVec_ofBitVec, unpackSign, unpackExponent, unpackMantissa,
    BitVec.extractLsb]
  ext i hi
  grind

theorem toNat_unpackMantissa (b : BitVec 64) :
    (@unpackMantissa .binary64 b).toNat = b.toNat % 2 ^ 52 := by
  unfold unpackMantissa BitVec.extractLsb
  rw [BitVec.toNat_cast, BitVec.extractLsb'_toNat]
  rfl

theorem toNat_unpackExponent (b : BitVec 64) :
    (@unpackExponent .binary64 b).toNat = b.toNat / 2 ^ 52 % 2 ^ 11 := by
  unfold unpackExponent BitVec.extractLsb
  rw [BitVec.toNat_cast, BitVec.extractLsb'_toNat, Nat.shiftRight_eq_div_pow]
  rfl

theorem unpackSign_eq_one_iff (b : BitVec 64) :
    @unpackSign .binary64 b = 1#1 ↔ b.toNat.testBit 63 := by
  unfold unpackSign BitVec.extractLsb
  rw [← BitVec.toNat_inj, BitVec.toNat_cast, BitVec.extractLsb'_toNat, Nat.shiftRight_eq_div_pow,
    Nat.testBit_eq_decide_div_mod_eq, decide_eq_true_eq]
  rfl

theorem toNat_one_append (v : BitVec 52) : (1#1 ++ v).toNat = 2 ^ 52 + v.toNat := by
  rw [BitVec.toNat_append, ← Nat.shiftLeft_add_eq_or_of_lt v.isLt]
  simp [Nat.shiftLeft_eq]

theorem log2_eq_iff {m : Nat} (hm : m ≠ 0) : m.log2 = 52 ↔ 2 ^ 52 ≤ m ∧ m < 2 ^ 53 := by
  rw [Nat.log2_eq_iff hm]

/-! ## Canonical numbers -/

/-- What a word can be unpacked into. -/
inductive Canonical : UnpackedFloat → Prop
  | notANumber : Canonical .notANumber
  | infinity (sign : Sign) : Canonical (.infinity sign)
  | zero (sign : Sign) : Canonical (.zero sign)
  | subnormal (sign : Sign) {mantissa : Nat} (hpos : 0 < mantissa) : mantissa < 2 ^ 52 →
    Canonical (.finite sign mantissa (-1074) hpos)
  | normal (sign : Sign) {mantissa : Nat} {exponent : Int} (hpos : 0 < mantissa) :
    2 ^ 52 ≤ mantissa → mantissa < 2 ^ 53 → -1074 ≤ exponent → exponent ≤ 971 →
    Canonical (.finite sign mantissa exponent hpos)

/-- The word of a subnormal number has no exponent. -/
theorem pack_subnormal (sign : Sign) {mantissa : Nat} (hpos : 0 < mantissa)
    (hlt : mantissa < 2 ^ 52) :
    UnpackedFloat.pack .binary64 (.finite sign mantissa (-1074) hpos) =
      packComponents .binary64 sign 0#11 (BitVec.ofNat 52 mantissa) := by
  have hlog : ¬ mantissa.log2 + 1 = 53 := by
    intro h
    have hle := ((log2_eq_iff (by omega)).1 (Nat.succ.inj h)).1
    omega
  exact if_neg hlog

/-- The word of a normal number has its biased exponent and its mantissa without the first bit. -/
theorem pack_normal (sign : Sign) {mantissa : Nat} {exponent : Int} (hpos : 0 < mantissa)
    (hle : 2 ^ 52 ≤ mantissa) (hlt : mantissa < 2 ^ 53) (hexp : exponent ≤ 971) :
    UnpackedFloat.pack .binary64 (.finite sign mantissa exponent hpos) =
      packComponents .binary64 sign (BitVec.ofNat 11 (exponent + 1023 + 52).toNat)
        (BitVec.ofNat 52 mantissa) := by
  have hlog : mantissa.log2 + 1 = 53 := congrArg Nat.succ ((log2_eq_iff (by omega)).2 ⟨hle, hlt⟩)
  have hfits : ¬ 2 ^ 11 ≤ (exponent + 1023 + 52).toNat + 1 := by omega
  exact (if_neg hfits).trans (if_pos hlog)

/-- A word without an exponent is unpacked with the least one. -/
theorem unpack_subnormal {b : BitVec 64} (hexp : @unpackExponent .binary64 b = 0#11)
    (hpos : 0 < (@unpackMantissa .binary64 b).toNat) :
    UnpackedFloat.unpack .binary64 b =
      .finite (Sign.ofBitVec (@unpackSign .binary64 b)) (@unpackMantissa .binary64 b).toNat (-1074)
        hpos := by
  have hne : ¬ @unpackMantissa .binary64 b = 0#52 := by
    intro h
    rw [h] at hpos
    exact absurd hpos (by decide)
  simp only [UnpackedFloat.unpack, hexp]
  rw [if_neg (by decide), if_pos trivial, dif_neg hne]
  rfl

theorem unpack_normal {b : BitVec 64} (hinf : ¬ @unpackExponent .binary64 b = -1#11)
    (hexp : ¬ @unpackExponent .binary64 b = 0#11) :
    UnpackedFloat.unpack .binary64 b =
      .finite (Sign.ofBitVec (@unpackSign .binary64 b))
        (2 ^ 52 + (@unpackMantissa .binary64 b).toNat)
        ((@unpackExponent .binary64 b).toNat - 1075) (by omega) := by
  simp only [UnpackedFloat.unpack]
  rw [if_neg hinf, if_neg hexp]
  simp only [toNat_one_append]
  rfl

/-- What a word is unpacked into, and what that is packed into. -/
theorem unpack_spec {b : BitVec 64} (h : Format.binary64.Valid b) :
    Canonical (UnpackedFloat.unpack .binary64 b) ∧
      UnpackedFloat.pack .binary64 (UnpackedFloat.unpack .binary64 b) = b := by
  have hb := packComponents_unpack b
  have hmantissa : (@unpackMantissa .binary64 b).toNat < 2 ^ 52 := BitVec.isLt _
  have hexponent : (@unpackExponent .binary64 b).toNat < 2 ^ 11 := BitVec.isLt _
  by_cases hinf : @unpackExponent .binary64 b = -1#11
  · by_cases hzero : @unpackMantissa .binary64 b = 0#52
    · have hunpack : UnpackedFloat.unpack .binary64 b =
          .infinity (Sign.ofBitVec (@unpackSign .binary64 b)) := by
        simp only [UnpackedFloat.unpack]
        rw [if_pos hinf, if_pos hzero]
      rw [hinf, hzero] at hb
      rw [hunpack]
      exact ⟨.infinity _, hb⟩
    · have hunpack : UnpackedFloat.unpack .binary64 b = .notANumber := by
        simp only [UnpackedFloat.unpack]
        rw [if_pos hinf, if_neg hzero]
      rw [hunpack]
      exact ⟨.notANumber, (h.eq_packedNaN hinf hzero).symm⟩
  by_cases hexp : @unpackExponent .binary64 b = 0#11
  · by_cases hzero : @unpackMantissa .binary64 b = 0#52
    · have hunpack : UnpackedFloat.unpack .binary64 b =
          .zero (Sign.ofBitVec (@unpackSign .binary64 b)) := by
        simp only [UnpackedFloat.unpack]
        rw [if_neg hinf, if_pos hexp, dif_pos hzero]
      rw [hexp, hzero] at hb
      rw [hunpack]
      exact ⟨.zero _, hb⟩
    · have hpos : 0 < (@unpackMantissa .binary64 b).toNat := by
        refine Nat.pos_of_ne_zero fun h0 => hzero (BitVec.eq_of_toNat_eq ?_)
        exact h0
      rw [unpack_subnormal hexp hpos, pack_subnormal _ hpos hmantissa]
      rw [hexp] at hb
      refine ⟨.subnormal _ hpos hmantissa, ?_⟩
      rwa [BitVec.ofNat_toNat, BitVec.setWidth_eq]
  · have hne : (@unpackExponent .binary64 b).toNat ≠ 0 := by
      intro h0
      exact hexp (BitVec.eq_of_toNat_eq h0)
    have hfull : (@unpackExponent .binary64 b).toNat ≠ 2047 := by
      intro h0
      exact hinf (BitVec.eq_of_toNat_eq h0)
    rw [unpack_normal hinf hexp]
    refine ⟨.normal _ _ (by omega) (by omega) (by omega) (by omega), ?_⟩
    rw [pack_normal _ _ (by omega) (by omega) (by omega)]
    have hfield : (((@unpackExponent .binary64 b).toNat : Int) - 1075 + 1023 + 52).toNat =
        (@unpackExponent .binary64 b).toNat := by omega
    have hclear : BitVec.ofNat 52 (2 ^ 52 + (@unpackMantissa .binary64 b).toNat) =
        @unpackMantissa .binary64 b := by
      apply BitVec.eq_of_toNat_eq
      rw [BitVec.toNat_ofNat, Nat.add_mod_left, Nat.mod_eq_of_lt hmantissa]
    rw [hfield, hclear, BitVec.ofNat_toNat, BitVec.setWidth_eq]
    exact hb

/-- Packing a canonical number and unpacking it again changes nothing. -/
theorem unpack_pack {u : UnpackedFloat} (h : Canonical u) :
    UnpackedFloat.unpack .binary64 (UnpackedFloat.pack .binary64 u) = u := by
  cases h with
  | notANumber => rfl
  | infinity sign => cases sign <;> rfl
  | zero sign => cases sign <;> rfl
  | @subnormal sign mantissa hpos hlt =>
    have hmantissa : (BitVec.ofNat 52 mantissa).toNat = mantissa := by
      rw [BitVec.toNat_ofNat, Nat.mod_eq_of_lt hlt]
    rw [pack_subnormal sign hpos hlt, unpack_subnormal]
    · simp only [unpackSign_packComponents, ofBitVec_toBitVec,
        UnpackedFloat.unpackMantissa_packComponents, hmantissa]
    · exact UnpackedFloat.unpackExponent_packComponents
    · rw [UnpackedFloat.unpackMantissa_packComponents, hmantissa]
      exact hpos
  | @normal sign mantissa exponent hpos hle hlt hleast hexp =>
    have hfield : (BitVec.ofNat 11 (exponent + 1023 + 52).toNat).toNat =
        (exponent + 1023 + 52).toNat := by
      rw [BitVec.toNat_ofNat, Nat.mod_eq_of_lt (by omega)]
    have hmantissa : (BitVec.ofNat 52 mantissa).toNat = mantissa - 2 ^ 52 := by
      rw [BitVec.toNat_ofNat]
      omega
    rw [pack_normal sign hpos hle hlt hexp, unpack_normal]
    · simp only [unpackSign_packComponents, ofBitVec_toBitVec,
        UnpackedFloat.unpackMantissa_packComponents, UnpackedFloat.unpackExponent_packComponents,
        hmantissa, hfield, UnpackedFloat.finite.injEq]
      exact ⟨trivial, by omega, by omega⟩
    · rw [UnpackedFloat.unpackExponent_packComponents]
      intro h
      have hfull : (BitVec.ofNat 11 (exponent + 1023 + 52).toNat).toNat = 2047 := by rw [h]; rfl
      omega
    · rw [UnpackedFloat.unpackExponent_packComponents]
      intro h
      have hnone : (BitVec.ofNat 11 (exponent + 1023 + 52).toNat).toNat = 0 := by rw [h]; rfl
      omega

/-! ## Numbers -/

theorem canonical (x : Float) : Canonical x.toModel.unpack :=
  (unpack_spec x.toModel.valid).1

/-- A number is what it is unpacked into, packed again. -/
theorem ofModel_pack_unpack (x : Float) : Float.ofModel (.pack x.toModel.unpack) = x := by
  obtain ⟨⟨bits, hvalid⟩⟩ := x
  have hbits := (unpack_spec hvalid).2
  simp only [Float.Model.pack, Float.Model.unpack]
  congr

theorem eq_of_unpack {x y : Float} (h : x.toModel.unpack = y.toModel.unpack) : x = y := by
  rw [← ofModel_pack_unpack x, h, ofModel_pack_unpack]

theorem unpack_ofModel_pack {u : UnpackedFloat} (h : Canonical u) :
    (Float.ofModel (.pack u)).toModel.unpack = u :=
  unpack_pack h

/-- Whether two unpacked numbers are equal: they are the same, or both zero. -/
inductive Equal : UnpackedFloat → UnpackedFloat → Prop
  | refl {u : UnpackedFloat} : u ≠ .notANumber → Equal u u
  | zero (s t : Sign) : Equal (.zero s) (.zero t)

theorem finite_beq {s t : Sign} {m n : Nat} {p q : Int} {hm : 0 < m} {hn : 0 < n}
    (h : (UnpackedFloat.finite s m p hm).beq (.finite t n q hn) = true) :
    s = t ∧ m = n ∧ p = q := by
  have hsame {o : Ordering} (ho : o = (compare p q).then (compare m n)) (heq : o = .eq) :
      m = n ∧ p = q := by
    rw [ho, Ordering.then_eq_eq] at heq
    exact ⟨Nat.compare_eq_eq.1 heq.2, Int.compare_eq_eq.1 heq.1⟩
  cases s <;> cases t
  · have heq : ((compare p q).then (compare m n)).swap = .eq := Option.some.inj (beq_iff_eq.1 h)
    exact ⟨rfl, hsame rfl (Ordering.swap_eq_eq.1 heq)⟩
  · cases h
  · cases h
  · exact ⟨rfl, hsame rfl (Option.some.inj (beq_iff_eq.1 h))⟩

theorem equal_of_beq {u v : UnpackedFloat} (h : u.beq v = true) : Equal u v := by
  cases u with
  | notANumber => cases h
  | infinity s =>
    cases v with
    | infinity t =>
      cases s <;> cases t <;> first | exact .refl nofun | cases h
    | notANumber | zero | finite => cases s <;> cases h
  | zero s =>
    cases v with
    | zero t => exact .zero s t
    | notANumber => cases h
    | infinity t | finite t => cases t <;> cases h
  | finite s m p hm =>
    cases v with
    | finite t n q hn =>
      obtain ⟨rfl, rfl, rfl⟩ := finite_beq h
      exact .refl nofun
    | notANumber => cases s <;> cases h
    | zero t => cases s <;> cases h
    | infinity t => cases s <;> cases t <;> cases h

theorem Equal.beq {u v : UnpackedFloat} (h : Equal u v) : u.beq v = true := by
  cases h with
  | zero s t => rfl
  | refl hne =>
    cases u with
    | notANumber => exact absurd rfl hne
    | infinity s => cases s <;> rfl
    | zero s => rfl
    | finite s m p hm =>
      have heq : (compare p p).then (compare m m) = .eq := by simp
      cases s with
      | negative =>
        change (some ((compare p p).then (compare m m)).swap == some .eq) = true
        rw [heq]
        rfl
      | positive =>
        change (some ((compare p p).then (compare m m)) == some .eq) = true
        rw [heq]
        rfl

theorem beq_iff {x y : Float} : (x == y) = true ↔ Equal x.toModel.unpack y.toModel.unpack :=
  ⟨equal_of_beq, Equal.beq⟩

/-! ## Signs -/

/-- The sign of an unpacked number; the undefined number has none and counts as positive. -/
def sign : UnpackedFloat → Sign
  | .notANumber => .positive
  | .infinity s | .zero s | .finite s _ _ _ => s

theorem unpackSign_pack (u : UnpackedFloat) :
    unpackSign (UnpackedFloat.pack .binary64 u) = (sign u).toBitVec := by
  cases u with
  | notANumber | infinity | zero => exact unpackSign_packComponents _ _ _
  | finite s m e hm =>
    rw [UnpackedFloat.pack]
    split
    · exact unpackSign_packComponents _ _ _
    · split <;> exact unpackSign_packComponents _ _ _

/-- A positive number stays positive when it is packed. -/
theorem sign_ofModel_pack {u : UnpackedFloat} (h : sign u = .positive) :
    sign (Float.ofModel (.pack u)).toModel.unpack = .positive := by
  have hword : Sign.ofBitVec (unpackSign (UnpackedFloat.pack .binary64 u)) = .positive := by
    rw [unpackSign_pack, h]
    rfl
  show sign (UnpackedFloat.unpack .binary64 (UnpackedFloat.pack .binary64 u)) = .positive
  simp only [UnpackedFloat.unpack, hword]
  repeat' split
  all_goals rfl

theorem sign_round (s : Sign) (m : Nat) (e : Int) (accuracy : UnpackedFloat.Accuracy) :
    sign (UnpackedFloat.roundWithAccuracy .binary64 s m e accuracy) = s := by
  simp only [UnpackedFloat.roundWithAccuracy]
  split <;> rfl

theorem sign_mul {x y : Float} (hx : sign x.toModel.unpack = .positive)
    (hy : sign y.toModel.unpack = .positive) : sign (x * y).toModel.unpack = .positive := by
  apply sign_ofModel_pack
  generalize x.toModel.unpack = u at hx
  generalize y.toModel.unpack = v at hy
  cases u <;> cases v <;> cases hx <;> cases hy <;> first | rfl | exact sign_round _ _ _ _

theorem sign_div {x y : Float} (hx : sign x.toModel.unpack = .positive)
    (hy : sign y.toModel.unpack = .positive) : sign (x / y).toModel.unpack = .positive := by
  apply sign_ofModel_pack
  generalize x.toModel.unpack = u at hx
  generalize y.toModel.unpack = v at hy
  cases u <;> cases v <;> cases hx <;> cases hy <;> first | rfl | exact sign_round _ _ _ _

theorem sign_ofUInt64 (n : UInt64) : sign n.toFloat.toModel.unpack = .positive := by
  apply sign_ofModel_pack
  simp only [UnpackedFloat.ofUInt64, UnpackedFloat.ofNat, UnpackedFloat.ofInt,
    UnpackedFloat.normalize]
  split
  · next hlt =>
    rw [Int.compare_eq_lt] at hlt
    omega
  · rfl
  · exact sign_round _ _ _ _

theorem sign_powerOfTen {x : Float} (h : x ∈ Float.exactlyRepresentablePowersOfTen) :
    sign x.toModel.unpack = .positive := by
  have hall : Float.exactlyRepresentablePowersOfTen.all fun x =>
      sign x.toModel.unpack matches .positive := by decide +kernel
  have hx := Array.all_eq_true_iff_forall_mem.1 hall x h
  cases hsign : sign x.toModel.unpack with
  | negative =>
    rw [hsign] at hx
    cases hx
  | positive => rfl

theorem sign_ofScientific (m : Nat) (negative : Bool) (e : Nat) :
    sign (Float.ofScientific m negative e).toModel.unpack = .positive := by
  rw [Float.ofScientific]
  split
  · next h =>
    have hsize : e < Float.exactlyRepresentablePowersOfTen.size := Nat.lt_succ_of_le h.2
    have hpower := sign_powerOfTen (Array.getElem_mem hsize)
    dsimp only
    split
    · exact sign_div (sign_ofUInt64 _) hpower
    · exact sign_mul (sign_ofUInt64 _) hpower
  · apply sign_ofModel_pack
    rw [UnpackedFloat.ofScientific]
    repeat' split
    all_goals first | rfl | exact sign_round _ _ _ _

theorem sign_magnitude (m : Nat) (e : Int) :
    sign (Numeral.magnitude m e).toModel.unpack = .positive := by
  rw [Numeral.magnitude]
  split
  · exact sign_ofScientific 0 false 0
  split
  · rfl
  split
  · exact sign_ofScientific 0 false 0
  · exact sign_ofScientific _ _ _

/-- Positive numbers that are equal are the same. -/
theorem eq_of_beq {x y : Float} (hx : sign x.toModel.unpack = .positive)
    (hy : sign y.toModel.unpack = .positive) (h : (x == y) = true) : x = y := by
  apply eq_of_unpack
  have heq := beq_iff.1 h
  generalize x.toModel.unpack = u at hx heq
  generalize y.toModel.unpack = v at hy heq
  cases heq with
  | refl => rfl
  | zero s t => rw [show s = t from hx.trans hy.symm]

end FloatModel

end MessageSelector.Decimal
