import MessageSelector.Decimal.Integer

/-!
# Shortest decimal digits

Every finite positive floating point number is `m · 2 ^ q` for natural `m`, and all reals of an
interval around it round to it. The shortest decimal of the number is the one with the fewest
digits inside that interval, and among those the nearest to the number. All arithmetic is on
natural numbers: the number and the ends of its interval are counted in quarters of its last place.
-/

namespace MessageSelector.Decimal

/-- The decimal `digits · 10 ^ exponent`. -/
structure Digits where
  digits : Nat
  exponent : Int
deriving DecidableEq, Repr

/-- A finite floating point number without its sign, as `mantissa · 2 ^ exponent`. -/
structure Binary where
  mantissa : Nat
  exponent : Int
  /-- Whether the number below has half the distance, as it has at a power of two. -/
  narrowBelow : Bool
deriving DecidableEq, Repr

namespace Binary

def ofBits (bits : UInt64) : Binary :=
  let fraction : Nat := bits.toNat % Nat.pow 2 52
  let field : Nat := bits.toNat / Nat.pow 2 52 % Nat.pow 2 11
  if field = 0 then ⟨fraction, -1074, false⟩
  else ⟨Nat.pow 2 52 + fraction, Int.ofNat field - 1075, fraction = 0 ∧ 1 < field⟩

/-- The numerator over `scale` of one quarter of the last place. -/
def unit (b : Binary) : Nat :=
  Nat.pow 2 (b.exponent - 2).toNat

/-- The common denominator under which a quarter of the last place is a natural number. -/
def scale (b : Binary) : Nat :=
  Nat.pow 2 (2 - b.exponent).toNat

def value (b : Binary) : Nat :=
  4 * b.mantissa * b.unit

/-- The lower end of the interval that rounds to the number, over `scale`. -/
def low (b : Binary) : Nat :=
  (4 * b.mantissa - if b.narrowBelow then 1 else 2) * b.unit

/-- The upper end of the interval that rounds to the number, over `scale`. -/
def high (b : Binary) : Nat :=
  (4 * b.mantissa + 2) * b.unit

/-- Whether `d · 10 ^ k` rounds to the number. The ends of the interval go to the even mantissa. -/
def covers (b : Binary) (d : Nat) (k : Int) : Bool :=
  let candidate := d * Nat.pow 10 k.toNat * b.scale
  let shift := Nat.pow 10 (-k).toNat
  if b.mantissa % 2 = 0 then b.low * shift ≤ candidate && candidate ≤ b.high * shift
  else b.low * shift < candidate && candidate < b.high * shift

/-- The exponent of ten of the number's first decimal digit. -/
def leading (b : Binary) : Int :=
  if b.scale ≤ b.value then (natural (b.value / b.scale)).length - 1
  else -(natural ((b.scale - 1) / b.value)).length

/-- The two neighbours of the number on the grid of multiples of `10 ^ k`: the one at or below it,
the one above it, and whether the second is at most as far away. -/
def neighbours (b : Binary) (k : Int) : Nat × Nat × Bool :=
  let numerator := b.value * Nat.pow 10 (-k).toNat
  let denominator := b.scale * Nat.pow 10 k.toNat
  let below := numerator / denominator
  (below, below + 1, denominator ≤ 2 * (numerator % denominator))

/-- The neighbour on the grid of `10 ^ k` that rounds to the number, the nearer one if both do. -/
def onGrid? (b : Binary) (k : Int) : Option Nat :=
  let (below, above, aboveIsNearer) := b.neighbours k
  match b.covers below k, b.covers above k with
  | true, true => some (if aboveIsNearer then above else below)
  | true, false => some below
  | false, true => some above
  | false, false => none

/-- Tries grids of more and more digits; the last one is taken as it is. -/
def search (b : Binary) : (more : Nat) → (k : Int) → Digits
  | 0, k => ⟨(b.neighbours k).1, k⟩
  | more + 1, k =>
    match b.onGrid? k with
    | some d => ⟨d, k⟩
    | none => b.search more (k - 1)

/-- The shortest decimal that rounds to a positive number. Seventeen digits always suffice. -/
def shortest (b : Binary) : Digits :=
  b.search 17 b.leading

end Binary

/-- Moves the trailing zeros of a decimal into its exponent. -/
def Digits.trim (d : Digits) : Digits :=
  if h : d.digits ≠ 0 ∧ d.digits % 10 = 0 then Digits.trim ⟨d.digits / 10, d.exponent + 1⟩ else d
termination_by d.digits
decreasing_by
  have : d.digits ≠ 0 := h.1
  omega

/-- The shortest decimal of a finite non-zero floating point number, leaving its sign aside. -/
def shortest (x : Float) : Digits :=
  (Binary.ofBits x.toBits).shortest.trim

end MessageSelector.Decimal
