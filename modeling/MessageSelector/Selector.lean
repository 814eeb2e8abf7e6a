import MessageSelector.Compilation
import MessageSelector.Evaluation
import MessageSelector.Parser
import MessageSelector.Typing

/-!
# Selectors

A selector is a text together with all that matching messages against it needs: its tree, the types
of the tree's nodes and its patterns. A text that is no selector is rejected when one is made of it.
-/

namespace MessageSelector

inductive SelectorError where
  | lex (e : LexError)
  | parse (e : ParseError)
  | type (e : TypeError)
  /-- The tree does not fit a pass over it, which is no fault of the text -/
  | defect (d : Defect)
deriving DecidableEq, Repr

namespace SelectorError

def message : SelectorError → String
  | lex e => e.message
  | parse e => e.message
  | type e => e.message
  | defect d => d.message

/-- Whether the error is no fault of the text. -/
def isDefect : SelectorError → Bool
  | defect _ => true
  | _ => false

/-- The error of a text that is no tree. -/
def ofSyntax : SyntaxError → SelectorError
  | .lex e => lex e
  | .parse e => parse e
  | .defect d => defect d

end SelectorError

/-- A text that is ready to be matched against messages. -/
structure Selector where
  source : String
  tree : Node
  types : TypeTable
  evaluator : Evaluator
  /-- `bool`, or `any` where it depends on identifiers without a hint. -/
  type : ExprType

namespace Selector

/-- The selector of a text under hints for the types of its identifiers. -/
def withHints (text : String) (hints : Hints) : Except SelectorError Selector := do
  let tree ← (parse text).mapError SelectorError.ofSyntax
  let types ← (tree.check hints).mapError SelectorError.defect
  let type ← (tree.accept types).mapError SelectorError.type
  let evaluator ← (Evaluator.ofTree tree).mapError SelectorError.defect
  return ⟨text, tree, types, evaluator, type⟩

/-- The selector of a text without hints. -/
def ofText (text : String) : Except SelectorError Selector :=
  withHints text Hints.empty

def value (s : Selector) (source : PropertySource) : Except Defect Value :=
  s.evaluator.value s.types source s.tree

/-- Whether a message matches. An unknown condition does not hold. -/
def accepts (s : Selector) (source : PropertySource) : Except Defect Bool :=
  s.evaluator.evaluate s.tree s.types source

def compile (s : Selector) : Except CompileError String :=
  s.tree.compile

/-- The text of a selector with all its groups in brackets. -/
def canonical (s : Selector) : String :=
  s.tree.print

end Selector

end MessageSelector
