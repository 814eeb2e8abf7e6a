import MessageSelector.Decimal.Integer
import MessageSelector.Operator

/-!
# Numbers

A number keeps the shape it was written in. Two integers are computed with exactly, and a result
that does not fit 64 bits is no result; as soon as one side is floating point, so is the other.
-/

namespace MessageSelector

inductive Number where
  | int (n : Int64)
  | float (x : Float)
deriving BEq

namespace Number

def toFloat : Number → Float
  | int n => Float.ofInt n.toInt
  | float x => x

/-- The order of two floating point numbers; the undefined number has none with any other. -/
def compareFloats (x y : Float) : Option Ordering :=
  if x < y then some .lt
  else if y < x then some .gt
  else if x == y then some .eq
  else none

def compare? : Number → Number → Option Ordering
  | int m, int n => some (Ord.compare m.toInt n.toInt)
  | a, b => compareFloats a.toFloat b.toFloat

/-- The exact result of an operation on integers; there is none by zero. -/
def onIntegers? : Arithmetic → Int → Int → Option Int
  | .add, m, n => some (m + n)
  | .subtract, m, n => some (m - n)
  | .multiply, m, n => some (m * n)
  | .divide, m, n => if n = 0 then none else some (m.tdiv n)

def onFloats : Arithmetic → Float → Float → Float
  | .add, x, y => x + y
  | .subtract, x, y => x - y
  | .multiply, x, y => x * y
  | .divide, x, y => x / y

/-- The result of an operation, if there is one that can be represented. -/
def arith? (op : Arithmetic) : Number → Number → Option Number
  | int m, int n => ((onIntegers? op m.toInt n.toInt).bind Decimal.fitInt64).map int
  | a, b => some (float (onFloats op a.toFloat b.toFloat))

/-- The number with the other sign, if it can be represented. -/
def negate? : Number → Option Number
  | int n => (Decimal.fitInt64 (-n.toInt)).map int
  | float x => some (float (-x))

/-- The number an unsigned word denotes: an integer if it fits a signed word, and the nearest
floating point number otherwise. -/
def ofUInt64 (n : UInt64) : Number :=
  (Decimal.fitInt64 n.toNat).elim (float (Float.ofNat n.toNat)) int

end Number

end MessageSelector
