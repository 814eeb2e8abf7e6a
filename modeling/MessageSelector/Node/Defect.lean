import MessageSelector.Node
import MessageSelector.Grammar

/-!
# Defects

The passes over a tree accept trees of any make, also such as the grammar cannot produce, and the
pass that builds a tree accepts whatever was recognized before. A defect says where such a pass
fails, and which one it is.
-/

namespace MessageSelector

/-- The place of a token in a tree. -/
inductive Place where
  | leaf
  | binary
  | ternary
  | prefixOp
  | postfixOp
deriving DecidableEq, Repr

def Place.name : Place → String
  | leaf => "leaf"
  | binary => "binary"
  | ternary => "ternary"
  | prefixOp => "prefix"
  | postfixOp => "postfix"

/-- The role that a node of a program's source fails to fill. -/
inductive Role where
  | operand
  | likeOperand
  | inOperand
  | patternString
deriving DecidableEq, Repr

def Role.name : Role → String
  | operand => "operand"
  | likeOperand => "LIKE operand"
  | inOperand => "IN operand"
  | patternString => "pattern string"

/-- What is wrong with a tree, or with what a tree is built from. -/
inductive Defect where
  /-- The type checker has no rule for the token in its place -/
  | untypable (kind : Token.Kind) (place : Place)
  /-- The evaluator has no rule for the operator in its place -/
  | notEvaluable (kind : Token.Kind) (place : Place)
  /-- The compiler has no rule for the operator in its place -/
  | notCompilable (kind : Token.Kind) (place : Place)
  /-- A leaf whose token has no value -/
  | noLeafValue (text : String)
  /-- A leaf whose token has no term -/
  | noLeafTerm (text : String)
  /-- A pattern or escape that is no string literal -/
  | patternNotString
  /-- `LIKE` whose right operand is no pattern -/
  | noPattern (id : Nat)
  /-- `IN` whose right operand is no list -/
  | noList
  /-- A pattern that is not the right operand of `LIKE` -/
  | strayPattern
  /-- A list that is not the right operand of `IN` -/
  | strayList
  /-- A node that cannot be compiled in its role -/
  | misplaced (role : Role)
  /-- A rule that was not recognized where its tree was asked for -/
  | notRecognized (rule : Rule) (position : Nat)
  /-- A match by an alternative that the rule does not have -/
  | noAlternative (rule : Rule) (index : Nat)
  /-- A match of a token where there is none -/
  | noToken (position : Nat)
  /-- An action on another number of children than it takes -/
  | childCount (action : Action) (wanted found : Nat)
  /-- An action on a node that is no token where it takes an operator -/
  | noOperator (action : Action) (found : Node)
  /-- An action on a node that is no string literal where it takes one -/
  | noString (action : Action)
  /-- An action on a node that is no list where it takes one -/
  | noTail (action : Action) (found : Node)
deriving DecidableEq, Repr

/-- The name of the form of a node, which stands for the whole node in a message. -/
def Node.form : Node → String
  | leaf _ _ => "Leaf"
  | binary _ _ _ _ => "Binary"
  | ternary _ _ _ _ _ => "Ternary"
  | prefixOp _ _ _ => "Prefix"
  | postfixOp _ _ _ => "Postfix"
  | pattern _ _ | escaped _ _ _ => "Pattern"
  | list _ _ => "List"

namespace Defect

/-- The defect in words, without the heading of `message`. -/
def detail : Defect → String
  | untypable kind place => "`" ++ kind.spelling ++ "` cannot appear as a " ++ place.name ++ " node"
  | notEvaluable kind place =>
    "cannot evaluate `" ++ kind.spelling ++ "` as a " ++ place.name ++ " node"
  | notCompilable kind place =>
    "cannot compile `" ++ kind.spelling ++ "` as a " ++ place.name ++ " node"
  | noLeafValue text => "`" ++ text ++ "` cannot be evaluated as a leaf"
  | noLeafTerm text => "`" ++ text ++ "` cannot be compiled as a leaf"
  | patternNotString => "LIKE pattern is not a string literal"
  | noPattern id => "no compiled pattern for node NodeId(" ++ toString id ++ ")"
  | noList => "IN without a list operand"
  | strayPattern => "LIKE pattern evaluated outside LIKE"
  | strayList => "string list evaluated outside IN"
  | misplaced role => "node cannot be compiled as " ++ role.name
  | notRecognized rule position =>
    rule.name ++ " was not recognized at token " ++ toString position
  | noAlternative rule index => rule.name ++ " has no alternative " ++ toString index
  | noToken position => "no token at recognized position " ++ toString position
  | childCount action wanted found =>
    action.name ++ " expects " ++ toString wanted ++ " children, grammar produced " ++
      toString found
  | noOperator action found =>
    action.name ++ " expects an operator token, grammar produced " ++ found.form
  | noString action => action.name ++ " expects a string literal"
  | noTail action found =>
    action.name ++ " expects a list tail, grammar produced " ++ found.form

def message (d : Defect) : String :=
  "internal error: " ++ d.detail

end Defect

end MessageSelector
