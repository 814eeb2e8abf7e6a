import MessageSelector.Proofs.ShortestDigits
import MessageSelector.Proofs.TermText

/-!
# Reading a number back

A finite number is read back from its text, in whichever layout it is written (`float?_write`). A
layout only moves the point and writes powers of ten out, so the numeral that is read from it has
the exact value of the digits (`Denotes`, `denotes_magnitude`); these are in the interval of the
number, and so converted to it.
-/

namespace MessageSelector.Decimal

open FloatModel
open Float.Model (UnpackedFloat)
open Float.Model.UnpackedFloat (Sign)

/-! ## Zeros around digits -/

theorem ofDigits_append_zeros (cs : List Char) (n : ℕ) :
    ofDigits (cs ++ List.replicate n '0') = ofDigits cs * 10 ^ n := by
  induction n with
  | zero => rw [List.replicate_zero, List.append_nil, Nat.pow_zero, Nat.mul_one]
  | succ n ih =>
    have hzero : digitValue '0' = 0 := rfl
    rw [List.replicate_succ', ← List.append_assoc, ofDigits_append, ih, hzero, Nat.pow_succ]
    ring

theorem ofDigits_zeros_append (n : ℕ) (cs : List Char) :
    ofDigits (List.replicate n '0' ++ cs) = ofDigits cs := by
  induction n with
  | zero => rfl
  | succ n ih =>
    rw [List.replicate_succ, List.cons_append]
    exact ih

theorem isDigit_replicate_zero {n : ℕ} : ∀ c ∈ List.replicate n '0', c.isDigit := by
  intro c hc
  rw [(List.mem_replicate.1 hc).2]
  rfl

/-! ## Layouts -/

/-- A text without a sign that is read as a numeral of this exact value. -/
def Denotes (cs : List Char) (y : ℚ) : Prop :=
  ∀ negative, ∃ n : Numeral, Numeral.unsigned? negative cs = some n ∧
    (n.significand : ℚ) * 10 ^ n.exponent = y

/-- A text that denotes a number has no sign. -/
theorem Denotes.head_ne_sign {cs : List Char} {y : ℚ} (h : Denotes cs y) :
    ∀ c, cs.head? = some c → c ≠ '-' ∧ c ≠ '+' := by
  intro c hc
  obtain ⟨rest, rfl⟩ := List.head?_eq_some_iff.1 hc
  obtain ⟨n, hn, -⟩ := h false
  constructor <;>
  · rintro rfl
    cases hn

/-- Digits with a point and a power of ten behind them. -/
theorem denotes_pointed {whole fraction tail : List Char} {e : ℤ} {y : ℚ}
    (hwhole : ∀ c ∈ whole, c.isDigit) (hfraction : ∀ c ∈ fraction, c.isDigit)
    (hne : ¬ (whole = [] ∧ fraction = []))
    (htail : ∀ c, tail.head? = some c → c.isDigit = false) (he : Numeral.exponent? tail = some e)
    (hy : (ofDigits (whole ++ fraction) : ℚ) * 10 ^ (e - fraction.length) = y) :
    Denotes (whole ++ '.' :: (fraction ++ tail)) y :=
  fun negative =>
    ⟨_, Numeral.unsigned?_pointed hwhole hfraction hne htail he negative, hy⟩

theorem denotes_fraction {whole fraction : List Char} {y : ℚ} (hwhole : ∀ c ∈ whole, c.isDigit)
    (hfraction : ∀ c ∈ fraction, c.isDigit) (hne : whole ≠ [])
    (hy : (ofDigits (whole ++ fraction) : ℚ) * 10 ^ (-fraction.length : ℤ) = y) :
    Denotes (whole ++ '.' :: fraction) y := by
  have hnone : Numeral.exponent? [] = some 0 := rfl
  rw [← zero_sub] at hy
  have hstop : ∀ c, ([] : List Char).head? = some c → c.isDigit = false := nofun
  have hdenotes := denotes_pointed hwhole hfraction (fun h => hne h.1) hstop hnone hy
  rwa [List.append_nil] at hdenotes

/-- A point behind all digits but the last ones divides by a power of ten. -/
theorem denotes_places {digits : List Char} (h : ∀ c ∈ digits, c.isDigit) {places : ℕ}
    (hlt : places < digits.length) :
    Denotes (FloatFormat.pointed digits places) (ofDigits digits * 10 ^ (-places : ℤ)) := by
  have hlength : (digits.drop (digits.length - places)).length = places := by
    rw [List.length_drop]
    omega
  apply denotes_fraction
  · exact fun c hc => h c (List.mem_of_mem_take hc)
  · exact fun c hc => h c (List.mem_of_mem_drop hc)
  · rw [← List.length_pos_iff, List.length_take]
    omega
  · rw [List.take_append_drop, hlength]

/-- The text of positional digits has the value of the digits. -/
theorem denotes_positional (d : ℕ) (k : ℤ) :
    Denotes (FloatFormat.positional (natural d) k) (d * 10 ^ k) := by
  have hdigits : ∀ c ∈ natural d, c.isDigit := fun _ => isDigit_natural
  have hpos := List.length_pos_iff.2 (natural_ne_nil d)
  unfold FloatFormat.positional
  by_cases hk : 0 ≤ k
  · rw [if_pos hk]
    obtain ⟨k, rfl⟩ := Int.eq_ofNat_of_zero_le hk
    apply denotes_fraction
    · exact fun c hc => (List.mem_append.1 hc).elim (hdigits c) (isDigit_replicate_zero c)
    · exact List.forall_mem_singleton.2 rfl
    · exact List.append_ne_nil_of_left_ne_nil (natural_ne_nil d) _
    · have hzero : digitValue '0' = 0 := rfl
      rw [ofDigits_append, ofDigits_append_zeros, ofDigits_natural, hzero, List.length_singleton,
        Int.toNat_natCast, Nat.cast_one, zpow_neg, zpow_one, zpow_natCast]
      push_cast
      ring
  · rw [if_neg hk]
    obtain ⟨k, rfl⟩ : ∃ j : ℕ, k = -(j : ℤ) := ⟨k.natAbs, by omega⟩
    rw [neg_neg, Int.toNat_natCast]
    have hall : ∀ c ∈ List.replicate (k + 1 - (natural d).length) '0' ++ natural d, c.isDigit :=
      fun c hc => (List.mem_append.1 hc).elim (isDigit_replicate_zero c) (hdigits c)
    have hlt : k < (List.replicate (k + 1 - (natural d).length) '0' ++ natural d).length := by
      rw [List.length_append, List.length_replicate]
      omega
    have hplaces := denotes_places hall hlt
    rwa [ofDigits_zeros_append, ofDigits_natural] at hplaces

/-- What is read behind the digits of a number with an exponent. -/
theorem exponent?_written (f : FloatFormat) (e : ℤ) : Numeral.exponent?
    ('e' :: ((if f.plusExponent ∧ 0 ≤ e then ['+'] else []) ++ integer e)) = some e := by
  rw [Numeral.exponent?, if_pos (.inl rfl)]
  split
  · next hplus =>
    have hneg : ¬ e < 0 := Int.not_lt.2 hplus.2
    rw [List.singleton_append, integer, if_neg hneg, integer?, natural?_natural]
    exact congrArg some (Int.natAbs_of_nonneg hplus.2)
  · exact integer?_integer e

/-- The text of digits with an exponent has the value of the digits. -/
theorem denotes_scientific (f : FloatFormat) (d : ℕ) (k : ℤ) :
    Denotes (f.scientific (natural d) (k + (natural d).length - 1)) (d * 10 ^ k) := by
  have hvalue := ofDigits_natural d
  obtain ⟨c, rest, heq, hc, hrest⟩ := natural_eq_cons d
  rw [heq] at hvalue ⊢
  have hfirst : ∀ a ∈ [c], a.isDigit := List.forall_mem_singleton.2 hc
  unfold FloatFormat.scientific
  obtain ⟨e, he⟩ : ∃ e : ℤ, k + (c :: rest).length - 1 = e := ⟨_, rfl⟩
  have hexponent := exponent?_written f e
  have hmark : ∀ a, ('e' :: ((if f.plusExponent ∧ 0 ≤ e then ['+'] else []) ++
      integer e)).head? = some a → a.isDigit = false ∧ a ≠ '.' := by
    intro a ha
    cases ha
    exact ⟨rfl, by decide⟩
  rw [he]
  dsimp only
  generalize 'e' :: ((if f.plusExponent ∧ 0 ≤ e then ['+'] else []) ++ integer e) = tail at *
  cases rest with
  | cons d rest =>
    have hdenotes := denotes_pointed hfirst hrest nofun (fun a ha => (hmark a ha).1) hexponent rfl
    rw [List.length_cons] at he
    have hplaces : e - ((d :: rest).length : ℤ) = k := by
      push_cast at he
      omega
    simp only [hplaces, List.singleton_append, hvalue] at hdenotes
    exact hdenotes
  | nil =>
    have hk : e = k := by
      rw [← he, List.length_singleton]
      omega
    subst hk
    show Denotes ((if f.pointBeforeExponent then [c, '.', '0'] else [c]) ++ tail) _
    by_cases hpoint : f.pointBeforeExponent
    · have hzero : ∀ a ∈ ['0'], a.isDigit := List.forall_mem_singleton.2 rfl
      have hten : (ofDigits ([c] ++ ['0']) : ℚ) * 10 ^ (e - (['0'].length : ℤ)) = d * 10 ^ e := by
        have hlast : digitValue '0' = 0 := rfl
        rw [ofDigits_append, hvalue, hlast, List.length_singleton, Nat.cast_one,
          zpow_sub_one₀ (by norm_num)]
        push_cast
        ring
      rw [if_pos hpoint]
      exact denotes_pointed hfirst hzero nofun (fun a ha => (hmark a ha).1) hexponent hten
    · intro negative
      have hwhole := Numeral.unsigned?_whole hfirst (List.cons_ne_nil c []) hmark hexponent negative
      rw [hvalue] at hwhole
      rw [if_neg hpoint]
      exact ⟨_, hwhole, rfl⟩

/-- The text of a finite number that is not zero has the value of its shortest digits. -/
theorem denotes_magnitude (f : FloatFormat) {x : Float} (h : ¬ (x == 0) = true) :
    Denotes (f.magnitude x) ((shortest x).digits * 10 ^ (shortest x).exponent) := by
  unfold FloatFormat.magnitude
  rw [if_neg h]
  extract_lets d digits leading
  split
  · exact denotes_positional _ _
  · exact denotes_scientific f _ _

/-! ## Numbers -/

theorem isNegative_iff (x : Float) :
    FloatFormat.isNegative x = true ↔ FloatModel.sign x.toModel.unpack = .negative := by
  have hsign := unpackSign_pack x.toModel.unpack
  have hword : UnpackedFloat.pack .binary64 x.toModel.unpack = x.toBits.toBitVec :=
    (unpack_spec x.toModel.valid).2
  rw [hword] at hsign
  unfold FloatFormat.isNegative
  show x.toBits.toBitVec.toNat.testBit 63 = true ↔ _
  rw [← unpackSign_eq_one_iff, hsign]
  cases FloatModel.sign x.toModel.unpack with
  | positive => exact ⟨nofun, nofun⟩
  | negative => exact ⟨fun _ => rfl, fun _ => rfl⟩

/-- The finite numbers. -/
theorem unpack_of_isFinite {x : Float} (hx : x.isFinite) :
    (∃ s, x.toModel.unpack = .zero s) ∨
      ∃ s m q, ∃ hparts : Parts m q, x.toModel.unpack = .finite s m q hparts.pos := by
  have hfinite : x.toModel.unpack.isFinite = true := hx
  have hcanonical := canonical x
  generalize x.toModel.unpack = u at hfinite hcanonical
  cases hcanonical with
  | notANumber | infinity => cases hfinite
  | zero s => exact .inl ⟨s, rfl⟩
  | subnormal s hpos hlt =>
    exact .inr ⟨s, _, _, ⟨hpos, by omega, by omega, by omega, by omega⟩, rfl⟩
  | normal s hpos hle hlt hleast hgreatest =>
    exact .inr ⟨s, _, _, ⟨hpos, hlt, hleast, hgreatest, fun _ => hle⟩, rfl⟩

theorem unpack_neg (x : Float) : (-x).toModel.unpack = x.toModel.unpack.neg := by
  have hcanonical : Canonical x.toModel.unpack.neg := by
    have h := canonical x
    generalize x.toModel.unpack = u at h
    cases h with
    | notANumber => exact .notANumber
    | infinity s => exact .infinity (-s)
    | zero s => exact .zero (-s)
    | subnormal s hpos hlt => exact .subnormal (-s) hpos hlt
    | normal s hpos hle hlt hleast hgreatest => exact .normal (-s) hpos hle hlt hleast hgreatest
  exact unpack_ofModel_pack hcanonical

theorem isFinite_neg (x : Float) : (-x).isFinite = x.isFinite := by
  show (-x).toModel.unpack.isFinite = x.toModel.unpack.isFinite
  rw [unpack_neg]
  cases x.toModel.unpack <;> rfl

/-- A number is its magnitude with its sign. -/
theorem eq_signed {x a : Float} (hx : FloatModel.sign x.toModel.unpack = .negative →
      x.toModel.unpack = a.toModel.unpack.neg)
    (hx' : FloatModel.sign x.toModel.unpack = .positive → x.toModel.unpack = a.toModel.unpack) :
    x = if FloatFormat.isNegative x then -a else a := by
  by_cases hneg : FloatFormat.isNegative x = true
  · rw [if_pos hneg]
    apply eq_of_unpack
    rw [unpack_neg]
    exact hx ((isNegative_iff x).1 hneg)
  · rw [if_neg hneg]
    apply eq_of_unpack
    apply hx'
    cases hsign : FloatModel.sign x.toModel.unpack with
    | positive => rfl
    | negative => exact absurd ((isNegative_iff x).2 hsign) hneg

/-- What the text of a number denotes is converted to the number without its sign. -/
theorem exists_denotes (f : FloatFormat) {x : Float} (hx : x.isFinite) :
    ∃ y a, Denotes (f.magnitude x) y ∧ (x = if FloatFormat.isNegative x then -a else a) ∧
      ∀ n : Numeral, (n.significand : ℚ) * 10 ^ n.exponent = y →
        Numeral.magnitude n.significand n.exponent = a := by
  rcases unpack_of_isFinite hx with ⟨s, hzero⟩ | ⟨s, m, q, hparts, hfinite⟩
  · have heq : (x == 0) = true := by
      rw [beq_iff, hzero]
      exact .zero s .positive
    refine ⟨0, 0, ?_, ?_, fun n hn => ?_⟩
    · unfold FloatFormat.magnitude
      rw [if_pos heq]
      have hdigit : ∀ c ∈ ['0'], c.isDigit := List.forall_mem_singleton.2 rfl
      exact denotes_fraction hdigit hdigit (List.cons_ne_nil _ _)
        (by norm_num [ofDigits, digitValue])
    · apply eq_signed <;>
      · intro hs
        rw [hzero] at hs ⊢
        cases hs
        rfl
    · have hten : (10 : ℚ) ^ n.exponent ≠ 0 := zpow_ne_zero _ (by norm_num)
      have hnone : n.significand = 0 :=
        Nat.cast_eq_zero.1 ((mul_eq_zero.1 hn).resolve_right hten)
      rw [hnone]
      rfl
  · have hne : ¬ (x == 0) = true := by
      rw [beq_iff, hfinite]
      intro hequal
      cases hequal
    have hround := roundsTo_shortest hfinite hparts
    refine ⟨_, .ofModel (.pack (.finite .positive m q hparts.pos)), denotes_magnitude f hne, ?_,
      fun n hn => ?_⟩
    · have hpositive := unpack_ofModel_pack (hparts.canonical .positive)
      apply eq_signed <;>
      · intro hs
        rw [hfinite] at hs ⊢
        rw [hpositive]
        cases hs
        rfl
    · have hvalue := hround
      rw [← hn] at hvalue
      refine hvalue.magnitude_eq hparts (Nat.pos_of_ne_zero fun hnone => ?_)
      have hleast := hvalue.least_le hparts
      rw [hnone, Nat.cast_zero, zero_mul] at hleast
      exact absurd hleast (not_le.2 (two_zpow_pos _))

/-- **A finite number is read back from its text**, in every layout. -/
theorem float?_write (f : FloatFormat) {x : Float} (hx : x.isFinite) :
    float? (f.write x).toList = some x := by
  obtain ⟨y, a, hdenotes, hsigned, hconvert⟩ := exists_denotes f hx
  have hread (negative : Bool) :
      unsignedFloat? negative (f.magnitude x) = some (if negative then -a else a) := by
    obtain ⟨n, hn, hvalue⟩ := hdenotes negative
    unfold unsignedFloat?
    rw [hn]
    simp only [Numeral.toFloat, hconvert n hvalue, Numeral.negative_of_unsigned? hn]
  rw [Term.toList_write hx]
  by_cases hneg : FloatFormat.isNegative x = true
  · rw [if_pos hneg] at hsigned ⊢
    rw [float?, hread true, hsigned]
    rfl
  · rw [if_neg hneg] at hsigned ⊢
    rw [float?_of_head hdenotes.head_ne_sign, hread false, hsigned]
    rfl

end MessageSelector.Decimal
