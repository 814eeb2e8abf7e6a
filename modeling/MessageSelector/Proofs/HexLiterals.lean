import Mathlib.Data.Nat.Digits.Defs
import MessageSelector.Proofs.LetterCase
import MessageSelector.Proofs.Reprinting

/-!
# Hexadecimal literals

A hexadecimal literal is exact from its digits to the number a program computes with (`hex_exact`).
Its digits spell a number in base sixteen, however many they are (`hexNumber`). If a word holds the
number, the literal has that word as its value, an evaluator and a reader of programs give it the
same number, and the program spells it in decimal (`Token.Denotes`); if no word holds it, the scan
stops in front of the literal.
-/

namespace MessageSelector

open Decimal (fitUInt64)

namespace Decimal

/-- A sum fits a word only if the first number does. -/
theorem fitUInt64_add (m d : ℕ) :
    ((fitUInt64 m).bind fun word => fitUInt64 (word.toNat + d)) = fitUInt64 (m + d) := by
  rcases Nat.lt_or_ge m UInt64.size with hfit | hover
  · obtain ⟨word, hword, rfl⟩ := fitUInt64_of_lt hfit
    rw [hword, Option.bind_some]
  · rw [fitUInt64_of_le hover, fitUInt64_of_le (Nat.le_add_right_of_le hover), Option.bind_none]

end Decimal

namespace Token

/-! ## Digits -/

/-- The hexadecimal digits in the order of their values. -/
def hexDigits : List Char :=
  ['0', '1', '2', '3', '4', '5', '6', '7', '8', '9', 'a', 'b', 'c', 'd', 'e', 'f']

def IsHexDigit (c : Char) : Prop :=
  c.toLower ∈ hexDigits

instance (c : Char) : Decidable (IsHexDigit c) :=
  inferInstanceAs (Decidable (c.toLower ∈ hexDigits))

/-- The number that hexadecimal digits spell, the first of which counts most. -/
def hexNumber (digits : List Char) : ℕ :=
  Nat.ofDigits 16 (digits.reverse.map fun c => hexDigits.idxOf c.toLower)

theorem hexNumber_cons (c : Char) (digits : List Char) :
    hexNumber (c :: digits) =
      16 ^ digits.length * hexDigits.idxOf c.toLower + hexNumber digits := by
  rw [hexNumber, List.reverse_cons, List.map_append, Nat.ofDigits_append, List.length_map,
    List.length_reverse, List.map_singleton, Nat.ofDigits_singleton, Nat.add_comm]
  rfl

theorem hexDigit?_of_isHexDigit {c : Char} (h : IsHexDigit c) :
    hexDigit? c = some (hexDigits.idxOf c.toLower) := by
  have hall : hexDigits.map hexDigit? = hexDigits.map fun d => some (hexDigits.idxOf d) := by
    decide
  rw [← hexDigit?_toLower]
  exact List.map_inj_left.1 hall _ h

theorem isSome_hexDigit? {c : Char} : (hexDigit? c).isSome ↔ IsHexDigit c := by
  constructor
  · intro h
    have hall : ∀ n < 103, (hexDigit? (Char.ofNat n)).isSome → IsHexDigit (Char.ofNat n) := by
      decide +kernel
    have hbound : c.toNat < 103 := by
      unfold hexDigit? at h
      split at h
      · next hdigit =>
        have hlast := (Char.isDigit_iff_toNat.1 hdigit).2
        exact Nat.lt_of_le_of_lt hlast (by decide)
      split at h
      · next hsmall => exact Nat.lt_succ_of_le hsmall.2
      split at h
      · next hcapital =>
        have hlast : c.toNat ≤ 'F'.toNat := hcapital.2
        exact Nat.lt_of_le_of_lt hlast (by decide)
      · cases h
    have hc := hall c.toNat hbound
    rw [Char.ofNat_toNat] at hc
    exact hc h
  · intro h
    rw [hexDigit?_of_isHexDigit h]
    rfl

/-! ## Values -/

theorem hexValueFrom_digits {digits : List Char} (h : ∀ c ∈ digits, IsHexDigit c) (sofar : ℕ) :
    hexValueFrom sofar digits = some (16 ^ digits.length * sofar + hexNumber digits) := by
  induction digits generalizing sofar with
  | nil => simp [hexValueFrom, hexNumber]
  | cons c digits ih =>
    obtain ⟨hc, hdigits⟩ := List.forall_mem_cons.1 h
    rw [hexValueFrom, hexDigit?_of_isHexDigit hc, Option.bind_some, ih hdigits, hexNumber_cons,
      List.length_cons, pow_succ]
    congr 1
    ring

theorem hexNumber_eq {digits : List Char} {n : ℕ} (h : ∀ c ∈ digits, IsHexDigit c)
    (hvalue : hexValueFrom 0 digits = some n) : hexNumber digits = n := by
  rw [hexValueFrom_digits h, Nat.mul_zero, Nat.zero_add] at hvalue
  exact Option.some.inj hvalue

theorem le_of_hexValueFrom {sofar n : ℕ} {cs : List Char} (h : hexValueFrom sofar cs = some n) :
    sofar ≤ n := by
  induction cs generalizing sofar with
  | nil =>
    cases h
    exact Nat.le_refl _
  | cons c cs ih =>
    obtain ⟨d, -, hrest⟩ := Option.bind_eq_some_iff.1 h
    have hle := ih hrest
    omega

/-- The word that hexadecimal digits denote behind the word of those read so far, where every
product and every sum must fit a word. -/
def hexWordFrom? (sofar : UInt64) : List Char → Option UInt64
  | [] => some sofar
  | c :: rest => (hexDigit? c).bind fun d => (fitUInt64 (16 * sofar.toNat)).bind fun product =>
    (fitUInt64 (product.toNat + d)).bind fun sum => hexWordFrom? sum rest

/-- Digits only make a number larger, so it is the same whether the words on the way fit or the last
one does. -/
theorem hexWordFrom?_eq (sofar : UInt64) (cs : List Char) :
    hexWordFrom? sofar cs = (hexValueFrom sofar.toNat cs).bind fitUInt64 := by
  induction cs generalizing sofar with
  | nil => simp [hexWordFrom?, hexValueFrom, fitUInt64, sofar.toNat_lt]
  | cons c cs ih =>
    rw [hexWordFrom?, hexValueFrom]
    cases hexDigit? c with
    | none => rfl
    | some d =>
      simp only [Option.bind_some]
      rw [← Option.bind_assoc, Decimal.fitUInt64_add]
      rcases Nat.lt_or_ge (16 * sofar.toNat + d) UInt64.size with hfit | hover
      · obtain ⟨word, hword, hvalue⟩ := Decimal.fitUInt64_of_lt hfit
        rw [hword, Option.bind_some, ih, hvalue]
      · rw [Decimal.fitUInt64_of_le hover, Option.bind_none]
        symm
        rw [Option.bind_eq_none_iff]
        intro n hn
        exact Decimal.fitUInt64_of_le (hover.trans (le_of_hexValueFrom hn))

theorem hexWordFrom?_digits {digits : List Char} (h : ∀ c ∈ digits, IsHexDigit c) :
    hexWordFrom? 0 digits = fitUInt64 (hexNumber digits) := by
  rw [hexWordFrom?_eq, UInt64.toNat_zero, hexValueFrom_digits h, Nat.mul_zero, Nat.zero_add,
    Option.bind_some]

theorem payload?_hex {x : Char} {digits : List Char} (hx : x = 'x' ∨ x = 'X') (hne : digits ≠ [])
    (offset : ℕ) : payload? ⟨.hex, String.ofList ('0' :: x :: digits), offset⟩ =
      (hexWordFrom? 0 digits).map .hex := by
  have hhex : hex? ('0' :: x :: digits) = hexWordFrom? 0 digits := by
    rw [hex?_digits hx hne, hexWordFrom?_eq]
    rfl
  simp only [payload?, String.toList_ofList, hhex]

end Token

/-! ## Numbers -/

/-- What number a natural number is computed with as: the integer itself up to the largest signed
one, and the nearest floating point number above it. -/
inductive Number.StandsFor (value : ℕ) : Number → Prop
  | int {n : Int64} : n.toInt = value → StandsFor value (.int n)
  | float : Int64.maxValue.toInt < value → Decimal.FloatModel.Nearest value (Float.ofNat value) →
    StandsFor value (.float (Float.ofNat value))

theorem Number.ofUInt64_standsFor (word : UInt64) :
    StandsFor word.toNat (ofUInt64 word) := by
  rw [ofUInt64]
  rcases Decimal.fitInt64_word word with ⟨n, hfit, hvalue, -⟩ | ⟨hnone, hlarge⟩
  · rw [hfit]
    exact .int hvalue
  · have hmax : Int64.maxValue.toInt = 2 ^ 63 - 1 := rfl
    have hnearest := @Decimal.FloatModel.nearest_ofScientific_mul word.toNat 0 (by omega) (by omega)
    rw [pow_zero, mul_one] at hnearest
    rw [hnone]
    exact .float hlarge hnearest

/-- An evaluator gives the token the number, and the token is compiled to the numeral, which is read
as the same number, alone and wherever nothing goes on with it. -/
structure Token.Denotes (t : Token) (numeral : String) (number : Number) : Prop where
  value : ∀ source, Evaluator.leafValue source t = .ok (.number number)
  compiled : Compilation.leaf t = .ok numeral
  alone : Term.read numeral = .ok (Term.Reader.ofNumber number)
  within : ∀ total room more, Term.Reader.Bounded more →
    Term.Reader.term total room (numeral.toList ++ more) = .ok (Term.Reader.ofNumber number, more)

theorem Token.denotes_word {t : Token} {word : UInt64} (hk : t.kind = .hex)
    (hvalue : t.payload? = some (.hex word)) :
    t.Denotes (Term.integerText word.toNat) (Number.ofUInt64 word) := by
  have hnone : ∀ c ∈ ([] : List Char), Text.isBlank c := List.forall_mem_nil _
  constructor
  case value =>
    intro source
    rw [Evaluator.leafValue, hk, hvalue]
  case compiled => rw [Compilation.leaf, hk, hvalue]
  case alone => exact (Term.written_word word).read hnone hnone (by simp)
  case within =>
    intro total room more hmore
    exact (Term.written_word word).reads more hmore

/-! ## From the digits to the numbers -/

namespace Scan

open Token (HexText IsHexDigit hexNumber hexWordFrom? isSome_hexDigit?)

variable {x : Char} {digits rest : List Char}

/-- A literal is found in front of anything but one more digit. -/
theorem textFrom_hex (hx : x = 'x' ∨ x = 'X') (hne : digits ≠ [])
    (hdigits : ∀ c ∈ digits, IsHexDigit c) (hrest : ∀ c, rest.head? = some c → ¬ IsHexDigit c)
    (offset : ℕ) :
    let text := '0' :: x :: digits
    let t : Token := ⟨.hex, String.ofList text, offset⟩
    textFrom offset (text ++ rest) =
      if t.payload?.isNone then ⟨[], String.ofList (text ++ rest), offset⟩
      else push t (textFrom (offset + text.length) rest) := by
  intro text t
  have htext : HexText text := .intro hx hne fun c hc => isSome_hexDigit?.2 (hdigits c hc)
  have hend : ∀ c, rest.head? = some c → (Token.hexDigit? c).isSome = false := by
    intro c hc
    rw [← Bool.not_eq_true, isSome_hexDigit?]
    exact hrest c hc
  have hlist : t.text.toList = text := String.toList_ofList
  have hne' : t.text.toList ≠ [] := hlist ▸ List.cons_ne_nil _ _
  have hfound := Token.firstLexeme?_hex htext hend
  rw [← hlist] at hfound ⊢
  exact textFrom_token hne' hfound offset

/-- **Hexadecimal literals are exact.** Wherever hexadecimal digits behind `0x` end, the literal
has the number that they spell as its value if a word holds it. Then the scan goes on behind the
literal, which denotes the integer up to the largest signed one and the nearest floating point
number above, for an evaluator and for a reader of the decimal numeral that it is compiled to. If
no word holds the number, the literal has no value, and the scan stops in front of it. -/
theorem hex_exact (hx : x = 'x' ∨ x = 'X') (hne : digits ≠ [])
    (hdigits : ∀ c ∈ digits, IsHexDigit c) (hrest : ∀ c, rest.head? = some c → ¬ IsHexDigit c)
    (offset : ℕ) :
    let text := '0' :: x :: digits
    let t : Token := ⟨.hex, String.ofList text, offset⟩
    let value := hexNumber digits
    t.payload? = (hexWordFrom? 0 digits).map .hex ∧
      (value < 2 ^ 64 →
        (∃ word : UInt64, word.toNat = value ∧ t.payload? = some (.hex word)) ∧
        textFrom offset (text ++ rest) = push t (textFrom (offset + text.length) rest) ∧
        ∃ number, Number.StandsFor value number ∧ t.Denotes (Term.integerText value) number) ∧
      (2 ^ 64 ≤ value → t.payload? = none ∧
        textFrom offset (text ++ rest) = ⟨[], String.ofList (text ++ rest), offset⟩) := by
  intro text t value
  have hpayload : t.payload? = (hexWordFrom? 0 digits).map .hex := Token.payload?_hex hx hne offset
  have hfit : t.payload? = (fitUInt64 value).map .hex := by
    rw [hpayload, Token.hexWordFrom?_digits hdigits]
  have hstep := textFrom_hex hx hne hdigits hrest offset
  refine ⟨hpayload, fun hsmall => ?_, fun hlarge => ?_⟩
  · obtain ⟨word, hword, htoNat⟩ := Decimal.fitUInt64_of_lt hsmall
    have hvalue : t.payload? = some (.hex word) := by rw [hfit, hword, Option.map_some]
    have hdenotes := Token.denotes_word rfl hvalue
    have hnumber := Number.ofUInt64_standsFor word
    rw [htoNat] at hdenotes hnumber
    refine ⟨⟨word, htoNat, hvalue⟩, ?_, _, hnumber, hdenotes⟩
    rw [hstep, if_neg]
    rw [hvalue]
    exact Bool.false_ne_true
  · have hnone : t.payload? = none := by
      rw [hfit, Decimal.fitUInt64_of_le hlarge, Option.map_none]
    refine ⟨hnone, ?_⟩
    rw [hstep, if_pos]
    rw [hnone]
    rfl

/-- The largest word behind two zeros, in mixed case, and the number above it. -/
theorem hex_exact_largest :
    let largest := "00fFFFFFFFFFFFFFFF".toList
    let above := "10000000000000000".toList
    let t : Token := ⟨.hex, String.ofList ('0' :: 'X' :: largest), 4⟩
    let u : Token := ⟨.hex, String.ofList ('0' :: 'x' :: above), 4⟩
    hexNumber largest = 2 ^ 64 - 1 ∧ hexNumber above = 2 ^ 64 ∧
      (∃ word : UInt64, word.toNat = hexNumber largest ∧ t.payload? = some (.hex word)) ∧
      (∃ number, Number.StandsFor (hexNumber largest) number ∧
        t.Denotes (Term.integerText (hexNumber largest)) number) ∧
      u.payload? = none ∧ textFrom 4 ('0' :: 'x' :: above ++ [')']) =
        ⟨[], String.ofList ('0' :: 'x' :: above ++ [')']), 4⟩ := by
  intro largest above t u
  have hlargest : ∀ c ∈ largest, IsHexDigit c := List.all_iff_forall_prop.1 (by decide +kernel)
  have habove : ∀ c ∈ above, IsHexDigit c := List.all_iff_forall_prop.1 (by decide +kernel)
  have hmax : hexNumber largest = 2 ^ 64 - 1 := Token.hexNumber_eq hlargest (by decide +kernel)
  have hover : hexNumber above = 2 ^ 64 := Token.hexNumber_eq habove (by decide +kernel)
  have hbracket : ∀ c, [')'].head? = some c → ¬ IsHexDigit c := by
    rintro _ ⟨⟩
    decide
  have hfits := (@hex_exact 'X' largest [')'] (.inr rfl) (by decide) hlargest hbracket 4).2.1
    (by rw [hmax]; decide)
  have hlarge := (@hex_exact 'x' above [')'] (.inl rfl) (by decide) habove hbracket 4).2.2
    (Nat.le_of_eq hover.symm)
  exact ⟨hmax, hover, hfits.1, hfits.2.2, hlarge⟩

end Scan

end MessageSelector
