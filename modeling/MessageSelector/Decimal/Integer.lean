/-!
# Decimal integers

Natural numbers are written with the fewest decimal digits and read from any non-empty run of them.
Integers carry an optional sign and are read only if they fit a signed or unsigned 64-bit word.
-/

namespace MessageSelector.Decimal

def digitChar (d : Nat) : Char :=
  Char.ofNat ('0'.toNat + d)

def digitValue (c : Char) : Nat :=
  c.toNat - '0'.toNat

/-- The decimal digits of a natural number, without leading zeros. -/
def natural (n : Nat) : List Char :=
  if n < 10 then [digitChar n] else natural (n / 10) ++ [digitChar (n % 10)]

/-- The decimal text of an integer: a minus sign in front of the digits of a negative one. -/
def integer (n : Int) : List Char :=
  if n < 0 then '-' :: natural n.natAbs else natural n.natAbs

def ofDigits (cs : List Char) : Nat :=
  cs.foldl (fun n c => 10 * n + digitValue c) 0

def natural? (cs : List Char) : Option Nat :=
  if !cs.isEmpty && cs.all Char.isDigit then some (ofDigits cs) else none

def integer? : List Char → Option Int
  | '-' :: rest => (natural? rest).map fun n => -(n : Int)
  | '+' :: rest => (natural? rest).map fun n => (n : Int)
  | cs => (natural? cs).map fun n => (n : Int)

/-- The signed 64-bit word of an integer, if the integer fits one. -/
def fitInt64 (n : Int) : Option Int64 :=
  if Int64.minValue.toInt ≤ n ∧ n ≤ Int64.maxValue.toInt then some (Int64.ofInt n) else none

/-- The unsigned 64-bit word of a natural number, if the number fits one. -/
def fitUInt64 (n : Nat) : Option UInt64 :=
  if n < UInt64.size then some (UInt64.ofNat n) else none

def int64? (cs : List Char) : Option Int64 :=
  (integer? cs).bind fitInt64

/-- Reads an unsigned 64-bit integer, which may have a plus sign but no minus sign. -/
def uint64? : List Char → Option UInt64
  | '+' :: rest => (natural? rest).bind fitUInt64
  | cs => (natural? cs).bind fitUInt64

end MessageSelector.Decimal
