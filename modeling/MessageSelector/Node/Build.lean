import MessageSelector.Node.Defect

/-!
# Building nodes

An action of the grammar builds a node from what the symbols of an alternative matched, a token
having matched as a leaf. Children of another number or make than the action takes are a defect. The
identifiers are placeholders until the whole tree is numbered.
-/

namespace MessageSelector.Action

/-- The operator that an action takes from a child. -/
def operator (action : Action) : Node → Except Defect Token
  | .leaf _ token => .ok token
  | found => .error (.noOperator action found)

/-- The string that an action takes from a child. -/
def string (action : Action) (child : Node) : Except Defect String :=
  match child.string? with
  | some s => .ok s
  | none => .error (.noString action)

/-- The strings that an action takes from a list. -/
def tail (action : Action) : Node → Except Defect (List String)
  | .list _ items => .ok items
  | found => .error (.noTail action found)

/-- The node that an action builds from its children. A pattern has one child or three. -/
def build (action : Action) (children : List Node) : Except Defect Node :=
  match action, children with
  | .collapse, [child] => .ok child
  | .interior, [_, child, _] => .ok child
  | .binary, [left, op, right] => do
    let op ← action.operator op
    return .binary 0 op left right
  | .binaryList, [left, op, _, list, _] => do
    let op ← action.operator op
    return .binary 0 op left list
  | .ternary, [first, op, second, _, third] => do
    let op ← action.operator op
    return .ternary 0 op first second third
  | .prefixOp, [op, operand] => do
    let op ← action.operator op
    return .prefixOp 0 op operand
  | .postfixOp, [operand, op] => do
    let op ← action.operator op
    return .postfixOp 0 op operand
  | .pattern, [text] => .ok (.pattern 0 text)
  | .pattern, [text, _, escape] => .ok (.escaped 0 text escape)
  | .listStart, [item] => do
    let s ← action.string item
    return .list 0 [s]
  | .listJoin, [item, _, rest] => do
    let s ← action.string item
    let items ← action.tail rest
    return .list 0 (s :: items)
  | _, _ => .error (.childCount action (action.arity?.getD 3) children.length)

end MessageSelector.Action
