import Std.Data.HashMap
import MessageSelector.ExprType
import MessageSelector.Node.Defect
import MessageSelector.Node.Printer
import MessageSelector.Operator

/-!
# Typing

Every node of a tree gets a type that depends only on its operator and on the types of its children.
An invalid child makes its parent invalid, whatever the operator, so the root of a tree is invalid
exactly if some node is. A tree is accepted as a selector if its root can be a condition.
-/

namespace MessageSelector

/-- The types of the nodes of a tree, by identifier. -/
structure TypeTable where
  types : Std.HashMap Nat ExprType := ∅

namespace TypeTable

/-- The type of a node, `notSet` if the checker never reached it. -/
def get (table : TypeTable) (id : Nat) : ExprType :=
  table.types.getD id .notSet

def size (table : TypeTable) : Nat :=
  table.types.size

def set (table : TypeTable) (id : Nat) (type : ExprType) : TypeTable :=
  ⟨table.types.insert id type⟩

end TypeTable

/-- A tree whose root is no condition. -/
structure TypeError where
  found : ExprType
  /-- The text of the innermost invalid subexpression. -/
  culprit : Option String
deriving DecidableEq, Repr

def TypeError.message (e : TypeError) : String :=
  "type error: selector has type " ++ e.found.name ++
    match e.culprit with
    | some text => ", invalid subexpression `" ++ text ++ "`"
    | none => ""

namespace Typing

/-- The given type, or `invalid` if a condition fails. -/
def require (holds : Bool) (type : ExprType) : ExprType :=
  if holds then type else .invalid

/-- Whether two types can both be the same comparable type. -/
def comparable (left right : ExprType) : Bool :=
  [ExprType.bool, .arith, .string].any fun type =>
    left.isCompatible type && right.isCompatible type

/-- The type of an operator between operands of the given types. -/
def binary (op : BinaryOperator) (left right : ExprType) : ExprType :=
  match op with
  | .compare .equal | .compare .notEqual => require (comparable left right) .bool
  | .compare _ => require (left.isCompatible .arith && right.isCompatible .arith) .bool
  | .arith _ => require (left.isCompatible .arith && right.isCompatible .arith) .arith
  | .and | .or => require (left.isCompatible .bool && right.isCompatible .bool) .bool
  | .like _ => require (left.isCompatible .string && right = .string) .bool
  | .isIn _ => require (left.isCompatible .string && right = .list) .bool

/-- The type of an operator in front of an operand of the given type. -/
def prefixed (op : PrefixOperator) (operand : ExprType) : ExprType :=
  match op with
  | .not => require (operand.isCompatible .bool) .bool
  | .minus | .plus => require (operand.isCompatible .arith) .arith

def isStringLeaf : Node → Bool
  | .leaf _ token => token.kind = .string
  | _ => false

/-- Whether a node is a leaf with a string literal of one character. -/
def isEscapeLeaf : Node → Bool
  | .leaf _ token => (token.string?.map String.length) = some 1
  | _ => false

def leaf (hints : Hints) (token : Token) : Except Defect ExprType :=
  match token.kind with
  | .trueWord | .falseWord => .ok .bool
  | .string => .ok .string
  | .int | .float | .hex => .ok .arith
  | .ident => .ok (hints token.text)
  | kind => .error (.untypable kind .leaf)

/-- The type of a node with children of the given types, none of them invalid. -/
def node (hints : Hints) : Node → List ExprType → Except Defect ExprType
  | .leaf _ token, _ => leaf hints token
  | .list _ _, _ => .ok .list
  | .pattern _ text, _ => .ok (require (isStringLeaf text) .string)
  | .escaped _ text escape, _ => .ok (require (isStringLeaf text && isEscapeLeaf escape) .string)
  | .binary _ op _ _, types =>
    match op.kind.binary?, types with
    | some op, [left, right] => .ok (binary op left right)
    | _, _ => .error (.untypable op.kind .binary)
  | .ternary _ op _ _ _, types =>
    match op.kind.ternaryNegated? with
    | some _ => .ok (require (types.all (·.isCompatible .arith)) .bool)
    | none => .error (.untypable op.kind .ternary)
  | .prefixOp _ op _, types =>
    match op.kind.prefix?, types with
    | some op, [operand] => .ok (prefixed op operand)
    | _, _ => .error (.untypable op.kind .prefixOp)
  | .postfixOp _ op _, _ =>
    match op.kind.postfixNegated? with
    | some _ => .ok .bool
    | none => .error (.untypable op.kind .postfixOp)

def nodeOrInvalid (hints : Hints) (n : Node) (types : List ExprType) : Except Defect ExprType :=
  if types.contains .invalid then .ok .invalid else node hints n types

/-- Notes the type of a node in the table of its children. -/
def settle (hints : Hints) (n : Node) (types : List ExprType) (table : TypeTable) :
    Except Defect (ExprType × TypeTable) :=
  match nodeOrInvalid hints n types with
  | .ok type => .ok (type, table.set n.id type)
  | .error d => .error d

/-- The type of a tree and the table with the types of all its nodes added. -/
def visit (hints : Hints) (table : TypeTable) : Node → Except Defect (ExprType × TypeTable)
  | .leaf id token => settle hints (.leaf id token) [] table
  | .list id items => settle hints (.list id items) [] table
  | .binary id op left right => do
    let (leftType, table) ← visit hints table left
    let (rightType, table) ← visit hints table right
    settle hints (.binary id op left right) [leftType, rightType] table
  | .ternary id op first second third => do
    let (firstType, table) ← visit hints table first
    let (secondType, table) ← visit hints table second
    let (thirdType, table) ← visit hints table third
    settle hints (.ternary id op first second third) [firstType, secondType, thirdType] table
  | .prefixOp id op operand => do
    let (type, table) ← visit hints table operand
    settle hints (.prefixOp id op operand) [type] table
  | .postfixOp id op operand => do
    let (type, table) ← visit hints table operand
    settle hints (.postfixOp id op operand) [type] table
  | .pattern id text => do
    let (type, table) ← visit hints table text
    settle hints (.pattern id text) [type] table
  | .escaped id text escape => do
    let (textType, table) ← visit hints table text
    let (escapeType, table) ← visit hints table escape
    settle hints (.escaped id text escape) [textType, escapeType] table

end Typing

namespace Node

/-- The types of all nodes of a tree. -/
def check (tree : Node) (hints : Hints) : Except Defect TypeTable :=
  (Typing.visit hints {} tree).map (·.2)

/-- The innermost invalid node, the first of them in source order. -/
def innermostInvalid? (table : TypeTable) : Node → Option Node
  | leaf id token => if table.get id = .invalid then some (leaf id token) else none
  | list id items => if table.get id = .invalid then some (list id items) else none
  | binary id op left right =>
    if table.get id = .invalid then
      (left.innermostInvalid? table).or ((right.innermostInvalid? table).or
        (some (binary id op left right)))
    else none
  | ternary id op first second third =>
    if table.get id = .invalid then
      (first.innermostInvalid? table).or ((second.innermostInvalid? table).or
        ((third.innermostInvalid? table).or (some (ternary id op first second third))))
    else none
  | prefixOp id op operand =>
    if table.get id = .invalid then
      (operand.innermostInvalid? table).or (some (prefixOp id op operand))
    else none
  | postfixOp id op operand =>
    if table.get id = .invalid then
      (operand.innermostInvalid? table).or (some (postfixOp id op operand))
    else none
  | pattern id text =>
    if table.get id = .invalid then
      (text.innermostInvalid? table).or (some (pattern id text))
    else none
  | escaped id text escape =>
    if table.get id = .invalid then
      (text.innermostInvalid? table).or ((escape.innermostInvalid? table).or
        (some (escaped id text escape)))
    else none

/-- The type of the root of a typed tree, if it can be a condition. -/
def accept (tree : Node) (table : TypeTable) : Except TypeError ExprType :=
  match table.get tree.id with
  | .bool => .ok .bool
  | .any => .ok .any
  | found => .error ⟨found, (tree.innermostInvalid? table).map print⟩

end Node

end MessageSelector
