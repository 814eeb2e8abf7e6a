import MessageSelector.Node

/-!
# Canonical text

A tree is printed as a selector in which every operator node stands in brackets, so that reading
the text again groups the operands as the tree does. Literals keep the spelling they were written
with.
-/

namespace MessageSelector.Node

/-- A leaf as it was written, except that the truth values have a canonical spelling. -/
def printLeaf (token : Token) : String :=
  match token.kind with
  | .trueWord | .falseWord => token.kind.spelling
  | _ => token.text

/-- An operator in front of its operand: a word needs a blank after it and a sign does not. -/
def printPrefix (kind : Token.Kind) (operand : String) : String :=
  match kind with
  | .not => "(NOT " ++ operand ++ ")"
  | _ => "(" ++ kind.spelling ++ operand ++ ")"

def print : Node → String
  | leaf _ token => printLeaf token
  | binary _ op left right =>
    "(" ++ left.print ++ " " ++ op.kind.spelling ++ " " ++ right.print ++ ")"
  | ternary _ op first second third =>
    "(" ++ first.print ++ " " ++ op.kind.spelling ++ " " ++ second.print ++ " AND " ++
      third.print ++ ")"
  | prefixOp _ op operand => printPrefix op.kind operand.print
  | postfixOp _ op operand => "(" ++ operand.print ++ " " ++ op.kind.spelling ++ ")"
  | pattern _ text => text.print
  | escaped _ text escape => text.print ++ " ESCAPE " ++ escape.print
  | list _ items => "(" ++ String.intercalate ", " (items.map Text.quote) ++ ")"

end MessageSelector.Node
