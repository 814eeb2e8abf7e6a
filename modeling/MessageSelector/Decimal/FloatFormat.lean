import MessageSelector.Decimal.Shortest

/-!
# Floating point text

A format decides how the shortest digits of a number are laid out: for which sizes the digits are
written positionally, and how an exponent is written otherwise. A number written positionally
always has a decimal point with a digit on both sides.
-/

namespace MessageSelector.Decimal

structure FloatFormat where
  /-- The least exponent of the first digit that is written positionally. -/
  positionalFrom : Int
  /-- The greatest exponent of the first digit that is written positionally. -/
  positionalTo : Int
  /-- Whether a single digit before an exponent is followed by a point and a zero. -/
  pointBeforeExponent : Bool
  /-- Whether a positive exponent has a plus sign. -/
  plusExponent : Bool

namespace FloatFormat

/-- The layout in which values are shown: positional from `0.0001` up to below `1e16`. -/
def display : FloatFormat := ⟨-4, 15, false, false⟩

/-- The layout of a program's numerals, which have a point before any exponent. -/
def program : FloatFormat := ⟨-4, 15, true, false⟩

/-- The layout of JSON text, which goes one power of ten further down and signs every exponent. -/
def json : FloatFormat := ⟨-5, 15, false, true⟩

/-- Digits with a decimal point `places` digits from the right, where there are more digits than
places. -/
def pointed (digits : List Char) (places : Nat) : List Char :=
  digits.take (digits.length - places) ++ '.' :: digits.drop (digits.length - places)

/-- A positional text of `digits · 10 ^ exponent`. -/
def positional (digits : List Char) (exponent : Int) : List Char :=
  if 0 ≤ exponent then digits ++ List.replicate exponent.toNat '0' ++ ['.', '0']
  else
    let places := (-exponent).toNat
    pointed (List.replicate (places + 1 - digits.length) '0' ++ digits) places

/-- The text of `digits · 10 ^ exponent` with one digit before the point and an exponent, the first
digit having the exponent `leading`. -/
def scientific (f : FloatFormat) (digits : List Char) (leading : Int) : List Char :=
  let mantissa :=
    match digits with
    | [d] => if f.pointBeforeExponent then [d, '.', '0'] else [d]
    | d :: rest => d :: '.' :: rest
    | [] => []
  let sign := if f.plusExponent ∧ 0 ≤ leading then ['+'] else []
  mantissa ++ 'e' :: (sign ++ integer leading)

/-- The text of a finite number, leaving its sign aside. -/
def magnitude (f : FloatFormat) (x : Float) : List Char :=
  if x == 0 then ['0', '.', '0']
  else
    let d := shortest x
    let digits := natural d.digits
    let leading := d.exponent + digits.length - 1
    if f.positionalFrom ≤ leading ∧ leading ≤ f.positionalTo then positional digits d.exponent
    else f.scientific digits leading

def isNegative (x : Float) : Bool :=
  x.toBits.toNat.testBit 63

/-- The text of a number, a name if it is not finite. -/
def write (f : FloatFormat) (x : Float) : String :=
  if x.isNaN then "NaN"
  else
    let body := if x.isInf then "inf".toList else f.magnitude x
    String.ofList (if isNegative x then '-' :: body else body)

end FloatFormat

def showFloat (x : Float) : String :=
  FloatFormat.display.write x

end MessageSelector.Decimal
