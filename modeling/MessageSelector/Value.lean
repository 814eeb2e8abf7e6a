import MessageSelector.ExprType
import MessageSelector.Number

/-!
# Values

Evaluation is three-valued: besides true and false a condition can be unknown, because a property is
missing or because an operation does not apply to its operands.
-/

namespace MessageSelector

inductive Value where
  /-- Neither true nor false, and no other value -/
  | unknown
  | bool (b : Bool)
  | string (s : String)
  | number (n : Number)
  | list (items : List String)
deriving BEq, Inhabited

namespace Value

def isUnknown : Value → Bool
  | unknown => true
  | _ => false

/-- Whether the value is the truth value true; an unknown condition does not hold. -/
def isTrue : Value → Bool
  | bool b => b
  | _ => false

def toBool? : Value → Option Bool
  | bool b => some b
  | _ => none

def toNumber? : Value → Option Number
  | number n => some n
  | _ => none

def toString? : Value → Option String
  | string s => some s
  | _ => none

/-- The static type of the values of one kind. -/
def type : Value → ExprType
  | unknown => .any
  | bool _ => .bool
  | string _ => .string
  | number _ => .arith
  | list _ => .list

/-- Discards the value of an expression with a type error. No other type changes a value: a
property whose value disagrees with its hint keeps it, and the operators see the mismatch. -/
def conform (v : Value) : ExprType → Value
  | .invalid => unknown
  | _ => v

/-- Three-valued conjunction: false wins, then unknown. -/
def and (v w : Value) : Value :=
  match v.toBool?, w.toBool? with
  | some false, _ | _, some false => bool false
  | some true, some true => bool true
  | _, _ => unknown

/-- Three-valued disjunction: true wins, then unknown. -/
def or (v w : Value) : Value :=
  match v.toBool?, w.toBool? with
  | some true, _ | _, some true => bool true
  | some false, some false => bool false
  | _, _ => unknown

def not (v : Value) : Value :=
  match v.toBool? with
  | some b => bool !b
  | none => unknown

/-- The negation of a value if it is asked for. -/
def negateIf (negated : Bool) (v : Value) : Value :=
  if negated then v.not else v

/-- Equality of two values of one kind. A number that has no order with another is not equal to
it. -/
def equals : Value → Value → Value
  | bool a, bool b => bool (a == b)
  | string a, string b => bool (a == b)
  | number a, number b => bool (a.compare? b == some .eq)
  | _, _ => unknown

/-- Whether a comparison other than equality holds of an order. -/
def ordered : Comparison → Ordering → Bool
  | .less, o => o == .lt
  | .lessOrEqual, o => o != .gt
  | .greater, o => o == .gt
  | .greaterOrEqual, o => o != .lt
  | .equal, o => o == .eq
  | .notEqual, o => o != .eq

/-- The order comparison of two numbers, false if they have no order. -/
def compareNumbers (op : Comparison) (v w : Value) : Value :=
  match v.toNumber?, w.toNumber? with
  | some a, some b =>
    match a.compare? b with
    | some o => bool (ordered op o)
    | none => bool false
  | _, _ => unknown

def compare (op : Comparison) (v w : Value) : Value :=
  match op with
  | .equal => v.equals w
  | .notEqual => (v.equals w).not
  | _ => compareNumbers op v w

/-- An operation on two numbers, unknown if it has no result. -/
def arith (op : Arithmetic) (v w : Value) : Value :=
  match v.toNumber?, w.toNumber? with
  | some a, some b =>
    match a.arith? op b with
    | some n => number n
    | none => unknown
  | _, _ => unknown

/-- Whether a value lies between two others, the ends included. -/
def between (v low high : Value) : Value :=
  (low.compare .lessOrEqual v).and (v.compare .lessOrEqual high)

def isIn (v : Value) (items : List String) : Value :=
  match v with
  | string s => bool (items.contains s)
  | _ => unknown

def negate (v : Value) : Value :=
  match v.toNumber?.bind Number.negate? with
  | some n => number n
  | none => unknown

def plus : Value → Value
  | number n => number n
  | _ => unknown

/-- The comparison that a token stands for; any other token compares nothing. -/
def compareBy (kind : Token.Kind) (v w : Value) : Value :=
  match kind.comparison? with
  | some op => v.compare op w
  | none => unknown

/-- The operation that a token stands for; any other token computes nothing. -/
def arithBy (kind : Token.Kind) (v w : Value) : Value :=
  match kind.arithmetic? with
  | some op => v.arith op w
  | none => unknown

/-- The value of an operator in front of its operand. -/
def applyPrefix (op : PrefixOperator) (v : Value) : Value :=
  match op with
  | .not => v.not
  | .minus => v.negate
  | .plus => v.plus

def nullTest (negated : Bool) (v : Value) : Value :=
  bool (v.isUnknown != negated)

end Value

end MessageSelector
