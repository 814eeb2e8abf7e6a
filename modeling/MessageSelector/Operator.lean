import MessageSelector.Token

/-!
# Operators

What a token means as an operator depends on its place. Each place has a type of its operators, and
a partial function from token kinds to them; the passes over a tree and the reader of programs share
these types, and differ only in how an operator is named.
-/

namespace MessageSelector

inductive Comparison where
  | equal
  | notEqual
  | less
  | lessOrEqual
  | greater
  | greaterOrEqual
deriving DecidableEq, Repr

inductive Arithmetic where
  | add
  | subtract
  | multiply
  | divide
deriving DecidableEq, Repr

inductive BinaryOperator where
  | and
  | or
  | compare (op : Comparison)
  | arith (op : Arithmetic)
  | like (negated : Bool)
  | isIn (negated : Bool)
deriving DecidableEq, Repr

inductive PrefixOperator where
  | not
  | minus
  | plus
deriving DecidableEq, Repr

namespace Token.Kind

def comparison? : Kind → Option Comparison
  | .equal => some .equal
  | .notEqual => some .notEqual
  | .less => some .less
  | .lessOrEqual => some .lessOrEqual
  | .greater => some .greater
  | .greaterOrEqual => some .greaterOrEqual
  | _ => none

def arithmetic? : Kind → Option Arithmetic
  | .plus => some .add
  | .minus => some .subtract
  | .times => some .multiply
  | .divide => some .divide
  | _ => none

/-- The operator a token is between two operands. -/
def binary? (kind : Kind) : Option BinaryOperator :=
  match kind with
  | .and => some .and
  | .or => some .or
  | .like => some (.like false)
  | .notLike => some (.like true)
  | .inList => some (.isIn false)
  | .notIn => some (.isIn true)
  | _ =>
    match kind.comparison? with
    | some op => some (.compare op)
    | none => kind.arithmetic?.map .arith

/-- Whether a token that takes three operands denies that the first lies between the others. -/
def ternaryNegated? : Kind → Option Bool
  | .between => some false
  | .notBetween => some true
  | _ => none

/-- The operator a token is in front of its operand. -/
def prefix? : Kind → Option PrefixOperator
  | .not => some .not
  | .minus => some .minus
  | .plus => some .plus
  | _ => none

/-- Whether a token behind its operand denies that the operand is missing. -/
def postfixNegated? : Kind → Option Bool
  | .isNull => some false
  | .isNotNull => some true
  | _ => none

end Token.Kind

namespace Comparison

/-- The symbol of a comparison, in selectors and in programs. -/
def symbol : Comparison → String
  | equal => "="
  | notEqual => "<>"
  | less => "<"
  | lessOrEqual => "<="
  | greater => ">"
  | greaterOrEqual => ">="

end Comparison

namespace Arithmetic

/-- The symbol of an arithmetic operation, in selectors and in programs. -/
def symbol : Arithmetic → String
  | add => "+"
  | subtract => "-"
  | multiply => "*"
  | divide => "/"

end Arithmetic

end MessageSelector
