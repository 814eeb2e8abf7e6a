import MessageSelector.Number

/-!
# Decimal digits

Reading the decimal text of an integer gives the integer back (`integer?_integer`). Which integers
fit a word is said once, for signed and for unsigned words (`fitInt64_eq_some`, `fitInt64_word`),
and so is which parts a numeral is taken apart into (`Numeral.unsigned?_pointed`,
`Numeral.unsigned?_whole`).
-/

namespace MessageSelector.Decimal

/-! ## Natural numbers -/

private theorem toNat_digitChar {d : Nat} (hd : d < 10) : (digitChar d).toNat = '0'.toNat + d := by
  revert d
  decide

theorem isDigit_digitChar {d : Nat} (hd : d < 10) : (digitChar d).isDigit := by
  rw [Char.isDigit_iff_toNat, toNat_digitChar hd]
  exact ⟨Nat.le_add_right _ _, Nat.add_le_add_left (Nat.le_of_lt_succ hd) _⟩

theorem eq_digitChar_of_isDigit {c : Char} (h : c.isDigit) : ∃ d < 10, c = digitChar d := by
  rw [Char.isDigit_iff_toNat] at h
  have hlow : 48 ≤ c.toNat := h.1
  have hhigh : c.toNat ≤ 57 := h.2
  refine ⟨c.toNat - 48, by omega, ?_⟩
  have hsum : '0'.toNat + (c.toNat - 48) = c.toNat := Nat.add_sub_cancel' hlow
  rw [digitChar, hsum, Char.ofNat_toNat]

theorem digitValue_digitChar {d : Nat} (hd : d < 10) : digitValue (digitChar d) = d := by
  rw [digitValue, toNat_digitChar hd, Nat.add_sub_cancel_left]

theorem natural_ne_nil (n : Nat) : natural n ≠ [] := by
  rw [natural]
  split <;> simp

theorem isDigit_natural {n : Nat} {c : Char} (h : c ∈ natural n) : c.isDigit := by
  induction n using Nat.strongRecOn with
  | ind n ih =>
    rw [natural] at h
    split at h
    · next hlt =>
      rw [List.mem_singleton.1 h]
      exact isDigit_digitChar hlt
    · next hge =>
      rcases List.mem_append.1 h with h | h
      · exact ih (n / 10) (by omega) h
      · rw [List.mem_singleton.1 h]
        exact isDigit_digitChar (Nat.mod_lt n (by decide))

theorem ofDigits_append (cs : List Char) (c : Char) :
    ofDigits (cs ++ [c]) = 10 * ofDigits cs + digitValue c := by
  rw [ofDigits, List.foldl_append]
  rfl

theorem ofDigits_natural (n : Nat) : ofDigits (natural n) = n := by
  induction n using Nat.strongRecOn with
  | ind n ih =>
    rw [natural]
    split
    · next hlt => exact (Nat.zero_add _).trans (digitValue_digitChar hlt)
    · next hge =>
      rw [ofDigits_append, ih (n / 10) (by omega), digitValue_digitChar (Nat.mod_lt n (by decide))]
      omega

/-- A run of digits is the natural number that they spell. -/
theorem natural?_digits {digits : List Char} (hne : digits ≠ []) (h : ∀ c ∈ digits, c.isDigit) :
    natural? digits = some (ofDigits digits) := by
  simpa [natural?, hne] using h

theorem natural?_natural (n : Nat) : natural? (natural n) = some n := by
  rw [natural?_digits (natural_ne_nil n) fun _ => isDigit_natural, ofDigits_natural]

/-- The digits of a natural number are a first digit and more digits. -/
theorem natural_eq_cons (n : Nat) :
    ∃ c rest, natural n = c :: rest ∧ c.isDigit ∧ ∀ d ∈ rest, d.isDigit := by
  cases h : natural n with
  | nil => exact absurd h (natural_ne_nil n)
  | cons c rest =>
    have hall : ∀ d ∈ c :: rest, d.isDigit := fun d hd => isDigit_natural (h ▸ hd)
    exact ⟨c, rest, rfl, hall c List.mem_cons_self, fun d hd => hall d (List.mem_cons_of_mem _ hd)⟩

/-! ## Words -/

/-- The integer is in the range of 64-bit signed words. -/
def InInt64 (k : Int) : Prop :=
  Int64.minValue.toInt ≤ k ∧ k ≤ Int64.maxValue.toInt

theorem inInt64_toInt (c : Int64) : InInt64 c.toInt :=
  ⟨c.le_toInt, Int.lt_add_one_iff.1 c.toInt_lt⟩

theorem InInt64.toInt_ofInt {k : Int} (h : InInt64 k) : (Int64.ofInt k).toInt = k := by
  obtain ⟨hlow, hhigh⟩ := h
  have hmin : Int64.minValue.toInt = -2 ^ 63 := by decide
  have hmax : Int64.maxValue.toInt = 2 ^ 63 - 1 := by decide
  exact Int64.toInt_ofInt_of_le (by omega) (by omega)

theorem fitInt64_eq_some {k : Int} {c : Int64} :
    fitInt64 k = some c ↔ InInt64 k ∧ k = c.toInt := by
  constructor
  · intro h
    rw [fitInt64] at h
    split at h
    · next hrange =>
      cases h
      exact ⟨hrange, (InInt64.toInt_ofInt hrange).symm⟩
    · cases h
  · rintro ⟨hrange, rfl⟩
    have hfit : fitInt64 c.toInt = some (Int64.ofInt c.toInt) := if_pos hrange
    rw [hfit, Int64.ofInt_toInt]

theorem fitInt64_eq_none {k : Int} : fitInt64 k = none ↔ ¬ InInt64 k := by
  constructor
  · intro h hrange
    rw [fitInt64_eq_some.2 ⟨hrange, hrange.toInt_ofInt.symm⟩] at h
    cases h
  · exact fun h => if_neg h

/-- An unsigned word fits a signed one, or is above all of them. -/
theorem fitInt64_word (n : UInt64) :
    (∃ k, fitInt64 n.toNat = some k ∧ k.toInt = n.toNat ∧ ¬ Int64.maxValue.toInt < n.toNat) ∨
      fitInt64 n.toNat = none ∧ Int64.maxValue.toInt < n.toNat := by
  have hmin : Int64.minValue.toInt = -2 ^ 63 := rfl
  by_cases hle : (n.toNat : Int) ≤ Int64.maxValue.toInt
  · have hrange : InInt64 n.toNat := ⟨by omega, hle⟩
    have hword := hrange.toInt_ofInt
    exact .inl ⟨_, fitInt64_eq_some.2 ⟨hrange, hword.symm⟩, hword, Int.not_lt.2 hle⟩
  · exact .inr ⟨fitInt64_eq_none.2 fun hrange => hle hrange.2, Int.not_le.1 hle⟩

theorem fitUInt64_of_lt {n : Nat} (h : n < UInt64.size) :
    ∃ word, fitUInt64 n = some word ∧ word.toNat = n :=
  ⟨_, if_pos h, UInt64.toNat_ofNat_of_lt h⟩

theorem fitUInt64_of_le {n : Nat} (h : UInt64.size ≤ n) : fitUInt64 n = none :=
  if_neg (Nat.not_lt.2 h)

theorem toNat_of_fitUInt64 {n : Nat} {word : UInt64} (h : fitUInt64 n = some word) :
    word.toNat = n := by
  rw [fitUInt64] at h
  split at h
  · next hlt =>
    cases h
    exact UInt64.toNat_ofNat_of_lt hlt
  · cases h

theorem integer?_digits {digits : List Char} (hne : digits ≠ []) (h : ∀ c ∈ digits, c.isDigit) :
    integer? digits = some (ofDigits digits : Int) := by
  have hread := natural?_digits hne h
  obtain ⟨c, rest, rfl⟩ := List.exists_cons_of_ne_nil hne
  have hc := h c List.mem_cons_self
  rw [integer?.eq_3, hread]
  · rfl
  · rintro _ ⟨⟩
    exact absurd hc (by decide)
  · rintro _ ⟨⟩
    exact absurd hc (by decide)

theorem integer?_natural (n : Nat) : integer? (natural n) = some (n : Int) := by
  rw [integer?_digits (natural_ne_nil n) fun _ => isDigit_natural, ofDigits_natural]

theorem integer?_integer (n : Int) : integer? (integer n) = some n := by
  rw [integer]
  split
  · next hneg =>
    rw [integer?, natural?_natural]
    have habs : -(n.natAbs : Int) = n := by omega
    exact congrArg some habs
  · next hpos =>
    rw [integer?_natural]
    exact congrArg some (by omega)

/-! ## Numerals -/

namespace Numeral

variable {whole fraction tail : List Char} {e : Int}

/-- Digits with a point, and what is read behind them as an exponent. -/
theorem unsigned?_pointed (hwhole : ∀ c ∈ whole, c.isDigit) (hfraction : ∀ c ∈ fraction, c.isDigit)
    (hne : ¬ (whole = [] ∧ fraction = []))
    (htail : ∀ c, tail.head? = some c → c.isDigit = false) (he : exponent? tail = some e)
    (negative : Bool) : unsigned? negative (whole ++ '.' :: (fraction ++ tail)) =
      some ⟨negative, ofDigits (whole ++ fraction), e - fraction.length⟩ := by
  have hpoint : ¬ ('.'.isDigit : Prop) := by decide
  have htake : tail.takeWhile Char.isDigit = [] ∧ tail.dropWhile Char.isDigit = tail := by
    cases tail with
    | nil => exact ⟨rfl, rfl⟩
    | cons c tail => simp [htail c rfl]
  rw [unsigned?, List.takeWhile_append_of_pos hwhole, List.dropWhile_append_of_pos hwhole,
    List.takeWhile_cons_of_neg hpoint, List.dropWhile_cons_of_neg hpoint]
  simp [List.takeWhile_append_of_pos hfraction, List.dropWhile_append_of_pos hfraction, htake, he,
    hne]

/-- Digits without a point, and what is read behind them as an exponent. -/
theorem unsigned?_whole (hwhole : ∀ c ∈ whole, c.isDigit) (hne : whole ≠ [])
    (htail : ∀ c, tail.head? = some c → c.isDigit = false ∧ c ≠ '.')
    (he : exponent? tail = some e) (negative : Bool) :
    unsigned? negative (whole ++ tail) = some ⟨negative, ofDigits whole, e⟩ := by
  rw [unsigned?, List.takeWhile_append_of_pos hwhole, List.dropWhile_append_of_pos hwhole]
  cases tail with
  | nil => simp [hne, he]
  | cons c tail =>
    obtain ⟨hc, hpoint⟩ := htail c rfl
    simp [hc, hne, he, hpoint]

/-- A numeral has the sign that was read in front of it. -/
theorem negative_of_unsigned? {negative : Bool} {cs : List Char} {n : Numeral}
    (h : unsigned? negative cs = some n) : n.negative = negative := by
  simp only [unsigned?] at h
  split at h
  all_goals
    split at h
    · cases h
    · obtain ⟨e, -, rfl⟩ := Option.map_eq_some_iff.1 h
      rfl

end Numeral

/-- Without a sign a number is read from its first character on. -/
theorem float?_of_head {text : List Char} (h : ∀ c, text.head? = some c → c ≠ '-' ∧ c ≠ '+') :
    float? text = unsignedFloat? false text := by
  apply float?.eq_3
  · rintro rest rfl
    exact (h '-' rfl).1 rfl
  · rintro rest rfl
    exact (h '+' rfl).2 rfl

end MessageSelector.Decimal
