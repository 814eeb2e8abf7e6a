import MessageSelector.Token

/-!
# Grammar

The grammar of selectors is a table. A rule has alternatives in the order in which they are tried;
an alternative is a sequence of symbols and an action that builds a tree from what they matched.
Where one alternative starts like another, the longer one comes first.

    expr       := orExpr
    orExpr     := andExpr OR orExpr | andExpr
    andExpr    := notExpr AND andExpr | notExpr
    notExpr    := NOT cmpExpr | cmpExpr
    cmpExpr    := arith cmpOp arith
                | arith BETWEEN arith AND arith
                | arith NOT BETWEEN arith AND arith
                | arith
    arith      := plusExpr
    plusExpr   := multExpr addOp plusExpr | multExpr
    multExpr   := signExpr mulOp multExpr | signExpr
    signExpr   := addOp simple | simple
    simple     := ( expr ) | TRUE | FALSE | string | number
                | ident IS NULL | ident IS NOT NULL
                | ident NOT IN ( stringList ) | ident IN ( stringList )
                | ident NOT LIKE pattern | ident LIKE pattern
                | ident
    pattern    := string ESCAPE string | string
    stringList := string , stringList | string
    number     := hex | float | int
-/

namespace MessageSelector

inductive Rule where
  | expr
  | orExpr
  | andExpr
  | notExpr
  | cmpExpr
  | cmpOp
  | arith
  | plusExpr
  | addOp
  | multExpr
  | mulOp
  | signExpr
  | simple
  | pattern
  | stringList
  | number
deriving DecidableEq, Hashable, Repr

inductive Symbol where
  | rule (r : Rule)
  | token (kind : Token.Kind)
deriving DecidableEq, Repr

/-- How a tree is built from the symbols of an alternative, which are counted from zero. -/
inductive Action where
  /-- The only child -/
  | collapse
  /-- Child 1, without the brackets around it -/
  | interior
  /-- Child 0 and child 2 under the operator at 1 -/
  | binary
  /-- Child 0 and the list at 3 under the operator at 1 -/
  | binaryList
  /-- Children 0, 2 and 4 under the operator at 1 -/
  | ternary
  /-- Child 1 under the operator at 0 -/
  | prefixOp
  /-- Child 0 under the operator at 1 -/
  | postfixOp
  /-- A pattern string, and an escape string if there is a child 2 -/
  | pattern
  /-- The list of the string at 0 -/
  | listStart
  /-- The string at 0 in front of the list at 2 -/
  | listJoin
deriving DecidableEq, Repr

/-- The number of symbols an action needs, unless it takes more than one number of them. -/
def Action.arity? : Action → Option Nat
  | .collapse | .listStart => some 1
  | .interior | .binary | .listJoin => some 3
  | .binaryList | .ternary => some 5
  | .prefixOp | .postfixOp => some 2
  | .pattern => none

def Action.name : Action → String
  | .collapse => "CollapseOne"
  | .interior => "CollapseInterior"
  | .binary => "Binary"
  | .binaryList => "BinaryList"
  | .ternary => "Ternary"
  | .prefixOp => "Prefix"
  | .postfixOp => "Postfix"
  | .pattern => "Pattern"
  | .listStart => "ListStart"
  | .listJoin => "ListJoin"

structure Alternative where
  action : Action
  symbols : List Symbol
deriving DecidableEq, Repr

namespace Rule

/-- The rule a whole selector matches. -/
def root : Rule := .expr

def name : Rule → String
  | expr => "Expr"
  | orExpr => "OrExpr"
  | andExpr => "AndExpr"
  | notExpr => "NotExpr"
  | cmpExpr => "CmpExpr"
  | cmpOp => "CmpOp"
  | arith => "Arith"
  | plusExpr => "PlusExpr"
  | addOp => "AddOp"
  | multExpr => "MultExpr"
  | mulOp => "MulOp"
  | signExpr => "SignExpr"
  | simple => "Simple"
  | pattern => "Pattern"
  | stringList => "StringList"
  | number => "Number"

/-- The alternatives of a rule, in the order in which they are tried. -/
def alternatives : Rule → List Alternative
  | expr => [⟨.collapse, [.rule orExpr]⟩]
  | orExpr =>
    [⟨.binary, [.rule andExpr, .token .or, .rule orExpr]⟩,
      ⟨.collapse, [.rule andExpr]⟩]
  | andExpr =>
    [⟨.binary, [.rule notExpr, .token .and, .rule andExpr]⟩,
      ⟨.collapse, [.rule notExpr]⟩]
  | notExpr =>
    [⟨.prefixOp, [.token .not, .rule cmpExpr]⟩,
      ⟨.collapse, [.rule cmpExpr]⟩]
  | cmpExpr =>
    [⟨.binary, [.rule arith, .rule cmpOp, .rule arith]⟩,
      ⟨.ternary, [.rule arith, .token .between, .rule arith, .token .and, .rule arith]⟩,
      ⟨.ternary, [.rule arith, .token .notBetween, .rule arith, .token .and, .rule arith]⟩,
      ⟨.collapse, [.rule arith]⟩]
  | cmpOp =>
    [⟨.collapse, [.token .equal]⟩,
      ⟨.collapse, [.token .notEqual]⟩,
      ⟨.collapse, [.token .less]⟩,
      ⟨.collapse, [.token .lessOrEqual]⟩,
      ⟨.collapse, [.token .greater]⟩,
      ⟨.collapse, [.token .greaterOrEqual]⟩]
  | arith => [⟨.collapse, [.rule plusExpr]⟩]
  | plusExpr =>
    [⟨.binary, [.rule multExpr, .rule addOp, .rule plusExpr]⟩,
      ⟨.collapse, [.rule multExpr]⟩]
  | addOp =>
    [⟨.collapse, [.token .plus]⟩,
      ⟨.collapse, [.token .minus]⟩]
  | multExpr =>
    [⟨.binary, [.rule signExpr, .rule mulOp, .rule multExpr]⟩,
      ⟨.collapse, [.rule signExpr]⟩]
  | mulOp =>
    [⟨.collapse, [.token .times]⟩,
      ⟨.collapse, [.token .divide]⟩]
  | signExpr =>
    [⟨.prefixOp, [.rule addOp, .rule simple]⟩,
      ⟨.collapse, [.rule simple]⟩]
  | simple =>
    [⟨.interior, [.token .openParen, .rule expr, .token .closeParen]⟩,
      ⟨.collapse, [.token .trueWord]⟩,
      ⟨.collapse, [.token .falseWord]⟩,
      ⟨.collapse, [.token .string]⟩,
      ⟨.collapse, [.rule number]⟩,
      ⟨.postfixOp, [.token .ident, .token .isNull]⟩,
      ⟨.postfixOp, [.token .ident, .token .isNotNull]⟩,
      ⟨.binaryList, [.token .ident, .token .notIn, .token .openParen, .rule stringList,
        .token .closeParen]⟩,
      ⟨.binaryList, [.token .ident, .token .inList, .token .openParen, .rule stringList,
        .token .closeParen]⟩,
      ⟨.binary, [.token .ident, .token .notLike, .rule pattern]⟩,
      ⟨.binary, [.token .ident, .token .like, .rule pattern]⟩,
      ⟨.collapse, [.token .ident]⟩]
  | pattern =>
    [⟨.pattern, [.token .string, .token .escape, .token .string]⟩,
      ⟨.pattern, [.token .string]⟩]
  | stringList =>
    [⟨.listJoin, [.token .string, .token .comma, .rule stringList]⟩,
      ⟨.listStart, [.token .string]⟩]
  | number =>
    [⟨.collapse, [.token .hex]⟩,
      ⟨.collapse, [.token .float]⟩,
      ⟨.collapse, [.token .int]⟩]

end Rule

end MessageSelector
