import MessageSelector.Node

/-!
# Shape

Two trees have the same shape if they differ only in identifiers, offsets and the spelling of
keywords and literals.
-/

namespace MessageSelector

/-- Whether two leaves hold tokens of one kind that stand for the same. -/
def Token.sameShape (a b : Token) : Bool :=
  a.kind = b.kind && a.payload? == b.payload?

/-- Whether two trees have the same shape. -/
def Node.sameShape : Node → Node → Bool
  | .leaf _ a, .leaf _ b => a.sameShape b
  | .binary _ op left right, .binary _ op' left' right' =>
    op.kind = op'.kind && (left.sameShape left' && right.sameShape right')
  | .ternary _ op first second third, .ternary _ op' first' second' third' =>
    op.kind = op'.kind &&
      (first.sameShape first' && second.sameShape second' && third.sameShape third')
  | .prefixOp _ op operand, .prefixOp _ op' operand' =>
    op.kind = op'.kind && operand.sameShape operand'
  | .postfixOp _ op operand, .postfixOp _ op' operand' =>
    op.kind = op'.kind && operand.sameShape operand'
  | .pattern _ text, .pattern _ text' => text.sameShape text'
  | .escaped _ text escape, .escaped _ text' escape' =>
    text.sameShape text' && escape.sameShape escape'
  | .list _ items, .list _ items' => items = items'
  | _, _ => false

end MessageSelector
