import MessageSelector.Token

/-!
# Trees

A selector is a tree of operators over literals and identifiers. Every node has an identifier;
`number` assigns them in pre-order from zero, so that the passes over a tree can keep what they find
in tables keyed by identifier.
-/

namespace MessageSelector

inductive Node where
  /-- A literal or an identifier -/
  | leaf (id : Nat) (token : Token)
  /-- An operator between two operands -/
  | binary (id : Nat) (op : Token) (left right : Node)
  /-- `BETWEEN` and its three operands -/
  | ternary (id : Nat) (op : Token) (first second third : Node)
  /-- An operator in front of its operand -/
  | prefixOp (id : Nat) (op : Token) (operand : Node)
  /-- An operator behind its operand -/
  | postfixOp (id : Nat) (op : Token) (operand : Node)
  /-- The right operand of `LIKE` -/
  | pattern (id : Nat) (text : Node)
  /-- The right operand of `LIKE` with an escape string -/
  | escaped (id : Nat) (text escape : Node)
  /-- The right operand of `IN` -/
  | list (id : Nat) (items : List String)
deriving DecidableEq, Repr

namespace Node

def id : Node → Nat
  | leaf id _ | binary id _ _ _ | ternary id _ _ _ _ | prefixOp id _ _ | postfixOp id _ _
  | pattern id _ | escaped id _ _ | list id _ => id

/-- The children of a node in source order. -/
def children : Node → List Node
  | leaf _ _ | list _ _ => []
  | binary _ _ left right => [left, right]
  | ternary _ _ first second third => [first, second, third]
  | prefixOp _ _ operand | postfixOp _ _ operand => [operand]
  | pattern _ text => [text]
  | escaped _ text escape => [text, escape]

def size : Node → Nat
  | leaf _ _ | list _ _ => 1
  | binary _ _ left right => 1 + (left.size + right.size)
  | ternary _ _ first second third => 1 + (first.size + second.size + third.size)
  | prefixOp _ _ operand | postfixOp _ _ operand => 1 + operand.size
  | pattern _ text => 1 + text.size
  | escaped _ text escape => 1 + (text.size + escape.size)

def preorder : Node → List Node
  | leaf id token => [leaf id token]
  | list id items => [list id items]
  | binary id op left right => binary id op left right :: (left.preorder ++ right.preorder)
  | ternary id op first second third =>
    ternary id op first second third :: (first.preorder ++ second.preorder ++ third.preorder)
  | prefixOp id op operand => prefixOp id op operand :: operand.preorder
  | postfixOp id op operand => postfixOp id op operand :: operand.preorder
  | pattern id text => pattern id text :: text.preorder
  | escaped id text escape => escaped id text escape :: (text.preorder ++ escape.preorder)

/-- The operator token of an operator node. -/
def operator? : Node → Option Token
  | binary _ op _ _ | ternary _ op _ _ _ | prefixOp _ op _ | postfixOp _ op _ => some op
  | _ => none

/-- The string that a leaf holding a string literal stands for. -/
def string? : Node → Option String
  | leaf _ token => token.string?
  | _ => none

/-- The tree with identifiers in pre-order, counted from `next`, and the first unused one. -/
def numberFrom (next : Nat) : Node → Node × Nat
  | leaf _ token => (leaf next token, next + 1)
  | list _ items => (list next items, next + 1)
  | binary _ op left right =>
    let (left, after) := left.numberFrom (next + 1)
    let (right, after) := right.numberFrom after
    (binary next op left right, after)
  | ternary _ op first second third =>
    let (first, after) := first.numberFrom (next + 1)
    let (second, after) := second.numberFrom after
    let (third, after) := third.numberFrom after
    (ternary next op first second third, after)
  | prefixOp _ op operand =>
    let (operand, after) := operand.numberFrom (next + 1)
    (prefixOp next op operand, after)
  | postfixOp _ op operand =>
    let (operand, after) := operand.numberFrom (next + 1)
    (postfixOp next op operand, after)
  | pattern _ text =>
    let (text, after) := text.numberFrom (next + 1)
    (pattern next text, after)
  | escaped _ text escape =>
    let (text, after) := text.numberFrom (next + 1)
    let (escape, after) := escape.numberFrom after
    (escaped next text escape, after)

/-- The tree with identifiers in pre-order from zero, and the number of its nodes. -/
def number (tree : Node) : Node × Nat :=
  tree.numberFrom 0

end Node

end MessageSelector
