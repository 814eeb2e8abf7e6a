import MessageSelector.Decimal.Integer

/-!
# Floating point numerals

A numeral is a signed product of a natural number and a power of ten. Reading one from text splits
it into an integer part, a fraction and an exponent; converting it to floating point rounds the
exact product once, to the nearest representable number.
-/

namespace MessageSelector.Decimal

/-- The number `± significand · 10 ^ exponent`. -/
structure Numeral where
  negative : Bool
  significand : Nat
  exponent : Int
deriving DecidableEq, Repr

namespace Numeral

/-- Floating point infinity, to which every product above the representable ones rounds. -/
def infinity : Float :=
  Float.ofBits 0x7ff0000000000000

def undefined : Float :=
  Float.ofBits 0x7ff8000000000000

/-- The floating point number nearest to `significand · 10 ^ exponent`. A non-zero product with an
exponent above 400 exceeds every finite number, and one whose exponent is further below zero than
400 and the significand's length in bits is closer to zero than to any other number, so neither
power of ten is ever built. -/
def magnitude (significand : Nat) (exponent : Int) : Float :=
  if significand = 0 then 0
  else if 400 < exponent then infinity
  else if exponent < -400 - Nat.log2 significand then 0
  else Float.ofScientific significand (exponent < 0) exponent.natAbs

def toFloat (n : Numeral) : Float :=
  if n.negative then -magnitude n.significand n.exponent else magnitude n.significand n.exponent

/-- Reads the exponent after a numeral's digits: nothing, or `e` and an integer. -/
def exponent? : List Char → Option Int
  | [] => some 0
  | c :: rest => if c = 'e' ∨ c = 'E' then integer? rest else none

/-- Reads the part of a numeral that follows its sign. Digits must stand before or after the
point. -/
def unsigned? (negative : Bool) (cs : List Char) : Option Numeral :=
  let whole := cs.takeWhile Char.isDigit
  match cs.dropWhile Char.isDigit with
  | '.' :: rest =>
    let fraction := rest.takeWhile Char.isDigit
    let digits := whole ++ fraction
    if digits.isEmpty then none
    else (exponent? (rest.dropWhile Char.isDigit)).map fun e =>
      ⟨negative, ofDigits digits, e - fraction.length⟩
  | rest =>
    if whole.isEmpty then none
    else (exponent? rest).map fun e => ⟨negative, ofDigits whole, e⟩

end Numeral

/-- The numbers that have a name instead of digits, in any case. -/
def named? (cs : List Char) : Option Float :=
  let name := cs.map Char.toLower
  if name = "inf".toList ∨ name = "infinity".toList then some Numeral.infinity
  else if name = "nan".toList then some Numeral.undefined
  else none

def unsignedFloat? (negative : Bool) (cs : List Char) : Option Float :=
  match Numeral.unsigned? negative cs with
  | some n => some n.toFloat
  | none => (named? cs).map fun x => if negative then -x else x

/-- Reads a floating point number: an optional sign, then digits or a name. -/
def float? : List Char → Option Float
  | '-' :: rest => unsignedFloat? true rest
  | '+' :: rest => unsignedFloat? false rest
  | cs => unsignedFloat? false cs

end MessageSelector.Decimal
