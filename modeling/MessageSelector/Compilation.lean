import MessageSelector.Node.Defect
import MessageSelector.Operator
import MessageSelector.Term

/-!
# Compilation

A tree is compiled to the text of a term with the same meaning.

| Selector | Term |
|---|---|
| `TRUE`, `FALSE` | `'true'`, `'false'` |
| a number | its numeral |
| a string | a binary string |
| an identifier | a tuple of `'ident'` and its name |
| a list of strings | a list of binary strings |
| `l op r` | a tuple of the operator and its operands |
| `NOT e`, `-e`, `+e` | a tuple of `'not'`, `'-'` or `'+'` and the operand |
| `x IS NULL`, `x IS NOT NULL` | a tuple of `'is_null'` or `'not_null'` and the operand |
| `x BETWEEN a AND b` | a tuple of `'between'`, `x` and a tuple of `'range'`, `a` and `b` |
| `x LIKE p` | a tuple of `'like'`, `x` and a pair of `p` and its escape or `'no_escape'` |
| `x IN (…)` | a tuple of `'in'`, `x` and the list |

An unsigned hexadecimal literal above the signed range is written as the unsigned numeral, which is
read back as the floating point number that the literal stands for.
-/

namespace MessageSelector

/-- Why a tree has no program. -/
inductive CompileError where
  | defect (d : Defect)
  /-- A literal that no numeral can express -/
  | unsupportedLiteral (text : String)
deriving DecidableEq, Repr

def CompileError.message : CompileError → String
  | defect d => d.message
  | unsupportedLiteral text => "cannot encode literal `" ++ text ++ "`"

/-- The atom that tags an operator between two operands. -/
def BinaryOperator.tag : BinaryOperator → String
  | and => "and"
  | or => "or"
  | compare op => op.symbol
  | arith op => op.symbol
  | like negated => if negated then "not_like" else "like"
  | isIn negated => if negated then "not_in" else "in"

/-- The atom that tags an operator in front of its operand. -/
def PrefixOperator.tag : PrefixOperator → String
  | not => "not"
  | minus => "-"
  | plus => "+"

namespace Compilation

def tagged (tag : String) (items : List String) : String :=
  Term.tupleText (Term.atomText tag :: items)

def leaf (token : Token) : Except CompileError String :=
  match token.kind with
  | .trueWord => .ok (Term.atomText "true")
  | .falseWord => .ok (Term.atomText "false")
  | .ident => .ok (tagged "ident" [Term.binaryText token.text])
  | _ =>
    match token.payload? with
    | some (.string s) => .ok (Term.binaryText s)
    | some (.int n) => .ok (Term.integerText n.toInt)
    | some (.hex n) => .ok (Term.integerText n.toNat)
    | some (.float x) =>
      match Term.floatText? x with
      | some text => .ok text
      | none => .error (.unsupportedLiteral token.text)
    | _ => .error (.defect (.noLeafTerm token.text))

/-- The binary string of a leaf with a string literal. -/
def stringLeaf (n : Node) : Except CompileError String :=
  match n.string? with
  | some s => .ok (Term.binaryText s)
  | none => .error (.defect (.misplaced .patternString))

/-- The pair of a pattern and its escape. -/
def pattern : Node → Except CompileError String
  | .pattern _ text => do
    let p ← stringLeaf text
    return Term.tupleText [p, Term.atomText "no_escape"]
  | .escaped _ text escape => do
    let p ← stringLeaf text
    let e ← stringLeaf escape
    return Term.tupleText [p, e]
  | _ => .error (.defect (.misplaced .likeOperand))

def list : Node → Except CompileError String
  | .list _ items => .ok (Term.listText (items.map Term.binaryText))
  | _ => .error (.defect (.misplaced .inOperand))

end Compilation

def Node.compile : Node → Except CompileError String
  | .leaf _ token => Compilation.leaf token
  | .binary _ op left right =>
    match op.kind.binary? with
    | none => .error (.defect (.notCompilable op.kind .binary))
    | some (.like negated) => do
      let l ← left.compile
      let p ← Compilation.pattern right
      return Compilation.tagged (BinaryOperator.like negated).tag [l, p]
    | some (.isIn negated) => do
      let items ← Compilation.list right
      let l ← left.compile
      return Compilation.tagged (BinaryOperator.isIn negated).tag [l, items]
    | some op => do
      let l ← left.compile
      let r ← right.compile
      return Compilation.tagged op.tag [l, r]
  | .ternary _ op first second third =>
    match op.kind.ternaryNegated? with
    | none => .error (.defect (.notCompilable op.kind .ternary))
    | some negated => do
      let v ← first.compile
      let low ← second.compile
      let high ← third.compile
      return Compilation.tagged (if negated then "not_between" else "between")
        [v, Compilation.tagged "range" [low, high]]
  | .prefixOp _ op operand =>
    match op.kind.prefix? with
    | none => .error (.defect (.notCompilable op.kind .prefixOp))
    | some op => do
      let v ← operand.compile
      return Compilation.tagged op.tag [v]
  | .postfixOp _ op operand =>
    match op.kind.postfixNegated? with
    | none => .error (.defect (.notCompilable op.kind .postfixOp))
    | some negated => do
      let v ← operand.compile
      return Compilation.tagged (if negated then "not_null" else "is_null") [v]
  | .pattern _ _ | .escaped _ _ _ | .list _ _ => .error (.defect (.misplaced .operand))

end MessageSelector
