import Std.Data.HashMap
import MessageSelector.Like
import MessageSelector.Node.Defect
import MessageSelector.Operator
import MessageSelector.Properties
import MessageSelector.Typing

/-!
# Evaluation

A tree is evaluated against one message after another. Its patterns are read once, into a table
keyed by the identifiers of the pattern nodes; evaluation then follows the tree, and `AND` and `OR`
leave out their second operand where the first decides.
-/

namespace MessageSelector

/-- The patterns of a tree, by identifier. A pattern whose escape string is not one character has
no pieces, and matching against it is unknown. -/
structure Evaluator where
  patterns : Std.HashMap Nat (Option (List Like.Piece)) := ∅

namespace Evaluator

def patternString (n : Node) : Except Defect String :=
  match n.string? with
  | some s => .ok s
  | none => .error .patternNotString

def add (evaluator : Evaluator) (id : Nat) (pattern : Option (List Like.Piece)) : Evaluator :=
  ⟨evaluator.patterns.insert id pattern⟩

/-- Adds the patterns of a tree to a table, in pre-order. -/
def collect (evaluator : Evaluator) : Node → Except Defect Evaluator
  | .leaf _ _ | .list _ _ => .ok evaluator
  | .binary _ _ left right => do
    let evaluator ← collect evaluator left
    collect evaluator right
  | .ternary _ _ first second third => do
    let evaluator ← collect evaluator first
    let evaluator ← collect evaluator second
    collect evaluator third
  | .prefixOp _ _ operand | .postfixOp _ _ operand => collect evaluator operand
  | .pattern id text => do
    let s ← patternString text
    collect (evaluator.add id (Like.compile? s none)) text
  | .escaped id text escape => do
    let s ← patternString text
    let e ← patternString escape
    let evaluator ← collect (evaluator.add id (Like.compile? s (some e))) text
    collect evaluator escape

def ofTree (tree : Node) : Except Defect Evaluator :=
  collect {} tree

def leafValue (source : PropertySource) (token : Token) : Except Defect Value :=
  match token.kind with
  | .trueWord => .ok (.bool true)
  | .falseWord => .ok (.bool false)
  | .ident => .ok (source.value token.text)
  | _ =>
    match token.payload? with
    | some (.string s) => .ok (.string s)
    | some (.int n) => .ok (.number (.int n))
    | some (.float x) => .ok (.number (.float x))
    | some (.hex n) => .ok (.number (Number.ofUInt64 n))
    | _ => .error (.noLeafValue token.text)

/-- Whether a subject matches the pattern of a node. -/
def like (evaluator : Evaluator) (subject : Value) (pattern : Nat) : Except Defect Value :=
  match evaluator.patterns[pattern]?, subject with
  | none, _ => .error (.noPattern pattern)
  | some (some pieces), .string s => .ok (.bool (Like.matches? pieces s))
  | some _, _ => .ok .unknown

def items (n : Node) : Except Defect (List String) :=
  match n with
  | .list _ items => .ok items
  | _ => .error .noList

def value (evaluator : Evaluator) (types : TypeTable) (source : PropertySource) :
    Node → Except Defect Value
  | .leaf id token => do
    let v ← leafValue source token
    return v.conform (types.get id)
  | .binary id op left right =>
    match op.kind.binary? with
    | none => .error (.notEvaluable op.kind .binary)
    | some .and => do
      let l ← value evaluator types source left
      if l.toBool? = some false then return l.conform (types.get id)
      let r ← value evaluator types source right
      return (l.and r).conform (types.get id)
    | some .or => do
      let l ← value evaluator types source left
      if l.toBool? = some true then return l.conform (types.get id)
      let r ← value evaluator types source right
      return (l.or r).conform (types.get id)
    | some (.compare c) => do
      let l ← value evaluator types source left
      let r ← value evaluator types source right
      return (l.compare c r).conform (types.get id)
    | some (.arith a) => do
      let l ← value evaluator types source left
      let r ← value evaluator types source right
      return (l.arith a r).conform (types.get id)
    | some (.like negated) => do
      let l ← value evaluator types source left
      let matched ← evaluator.like l right.id
      return (matched.negateIf negated).conform (types.get id)
    | some (.isIn negated) => do
      let list ← items right
      let l ← value evaluator types source left
      return ((l.isIn list).negateIf negated).conform (types.get id)
  | .ternary id op first second third => do
    let v ← value evaluator types source first
    let low ← value evaluator types source second
    let high ← value evaluator types source third
    match op.kind.ternaryNegated? with
    | some negated => return ((v.between low high).negateIf negated).conform (types.get id)
    | none => .error (.notEvaluable op.kind .ternary)
  | .prefixOp id op operand => do
    let v ← value evaluator types source operand
    match op.kind.prefix? with
    | some op => return (v.applyPrefix op).conform (types.get id)
    | none => .error (.notEvaluable op.kind .prefixOp)
  | .postfixOp id op operand => do
    let v ← value evaluator types source operand
    match op.kind.postfixNegated? with
    | some negated => return (v.nullTest negated).conform (types.get id)
    | none => .error (.notEvaluable op.kind .postfixOp)
  | .pattern _ _ | .escaped _ _ _ => .error .strayPattern
  | .list _ _ => .error .strayList

/-- Whether a message matches: whether the value of the root is true. -/
def evaluate (evaluator : Evaluator) (tree : Node) (types : TypeTable) (source : PropertySource) :
    Except Defect Bool :=
  (evaluator.value types source tree).map Value.isTrue

end Evaluator

end MessageSelector
