import MessageSelector.Decimal.Numeral
import MessageSelector.Json

/-!
# Numbers of JSON

An integer that fits a signed or unsigned 64-bit word is kept as it is. Every other number is read
as floating point, in two roundings: as many digits as fit an unsigned word are rounded to floating
point, and the result is scaled by a power of ten. A number too large to be finite is no number.
-/

namespace MessageSelector.Json

/-- Reads digits behind the number read so far, as long as it fits an unsigned 64-bit word. The
answer is the number and how many digits were read. -/
def fittingDigits (sofar : Nat) : List Char → Nat × Nat
  | [] => (sofar, 0)
  | c :: rest =>
    let more := 10 * sofar + Decimal.digitValue c
    if more < UInt64.size then
      let (n, count) := fittingDigits more rest
      (n, count + 1)
    else (sofar, 0)

def powerOfTen (exponent : Nat) : Float :=
  Float.ofScientific 1 false exponent

/-- Scales a floating point number by a power of ten, in steps of the greatest finite one. -/
def scale? (x : Float) (exponent : Int) : Option Float :=
  if exponent < -308 then
    if x == 0 then some x else scale? (x / powerOfTen 308) (exponent + 308)
  else if exponent < 0 then some (x / powerOfTen exponent.natAbs)
  else if exponent ≤ 308 then (some (x * powerOfTen exponent.natAbs)).filter Float.isFinite
  else if x == 0 then some x
  else none
termination_by exponent.natAbs
decreasing_by omega

/-- The floating point number with the given sign, digits before and behind the point, and
exponent. -/
def floating? (negative : Bool) (whole fraction : List Char) (exponent : Int) : Option Float :=
  let (n, wholeCount) := fittingDigits 0 whole
  let (n, fractionCount) := fittingDigits n fraction
  let dropped : Int := whole.length - wholeCount
  (scale? (Float.ofNat n) (exponent + dropped - fractionCount)).map fun x =>
    if negative then -x else x

/-- The integer with the given sign and digits, if it fits a word. Minus zero is no integer. -/
def fittingInteger? (negative : Bool) (digits : List Char) : Option Int :=
  let n := Decimal.ofDigits digits
  if negative then if 0 < n ∧ Int64.minValue.toInt ≤ -(n : Int) then some (-(n : Int)) else none
  else if n < UInt64.size then some n else none

def ofWhole? (negative : Bool) (digits : List Char) : Option Json :=
  match fittingInteger? negative digits with
  | some n => some (.int n)
  | none => (floating? negative digits [] 0).map .float

/-- Splits off a run of digits that must not be empty. -/
def someDigits? (cs : List Char) : Option (List Char × List Char) :=
  let digits := cs.takeWhile Char.isDigit
  if digits.isEmpty then none else some (digits, cs.dropWhile Char.isDigit)

/-- Splits off the digits before the point, which have no leading zero. -/
def wholeDigits? (cs : List Char) : Option (List Char × List Char) :=
  (someDigits? cs).bind fun r =>
    match r.1 with
    | '0' :: _ :: _ => none
    | _ => some r

/-- Splits off an exponent: a mark, an optional sign and digits. The outer `none` is a mark without
digits, the inner one no exponent. -/
def exponentPart? : List Char → Option (Option Int × List Char)
  | [] => some (none, [])
  | c :: rest =>
    if c = 'e' ∨ c = 'E' then
      let (negative, rest) :=
        match rest with
        | '-' :: rest => (true, rest)
        | '+' :: rest => (false, rest)
        | _ => (false, rest)
      (someDigits? rest).map fun r =>
        let n : Int := Decimal.ofDigits r.1
        (some (if negative then -n else n), r.2)
    else some (none, c :: rest)

/-- Splits off a fraction: a point and digits. -/
def fractionPart? : List Char → Option (Option (List Char) × List Char)
  | '.' :: rest => (someDigits? rest).map fun r => (some r.1, r.2)
  | cs => some (none, cs)

def unsignedNumber? (negative : Bool) (cs : List Char) : Option (Json × List Char) := do
  let (whole, rest) ← wholeDigits? cs
  let (fraction, rest) ← fractionPart? rest
  let (exponent, rest) ← exponentPart? rest
  match fraction, exponent with
  | none, none => return (← ofWhole? negative whole, rest)
  | _, _ =>
    let x ← floating? negative whole (fraction.getD []) (exponent.getD 0)
    return (.float x, rest)

def number? : List Char → Option (Json × List Char)
  | '-' :: rest => unsignedNumber? true rest
  | cs => unsignedNumber? false cs

end MessageSelector.Json
