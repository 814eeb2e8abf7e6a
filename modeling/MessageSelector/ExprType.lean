/-!
# Expression types

The static types of subexpressions. The type of an identifier without a hint is `any`, which may
stand wherever another type is asked for.
-/

namespace MessageSelector

inductive ExprType where
  | notSet
  | bool
  | string
  /-- A number of either shape -/
  | arith
  /-- Unknown before evaluation -/
  | any
  /-- The right operand of `IN` -/
  | list
  /-- A type error at this node or below it -/
  | invalid
deriving DecidableEq, Repr, Inhabited

namespace ExprType

def name : ExprType → String
  | notSet => "not-set"
  | bool => "bool"
  | string => "string"
  | arith => "arith"
  | any => "any"
  | list => "list"
  | invalid => "invalid"

/-- Whether a value of a type may stand where another type is wanted. -/
def isCompatible : ExprType → ExprType → Bool
  | any, _ => true
  | invalid, _ | notSet, _ => false
  | type, wanted => type = wanted

/-- The type that a hint names, in any case of ASCII letters. -/
def ofName? (name : String) : Option ExprType :=
  match name.map Char.toLower with
  | "bool" | "boolean" => some bool
  | "string" | "str" => some string
  | "arith" | "number" | "numeric" => some arith
  | "any" => some any
  | _ => none

end ExprType

/-- The types of identifiers, `any` where nothing is known. -/
abbrev Hints := String → ExprType

namespace Hints

/-- No hints: nothing is known of any identifier. -/
def empty : Hints := fun _ => .any

/-- The hints of a list of names and types, of which the first for a name counts. -/
def ofList (hints : List (String × ExprType)) : Hints :=
  fun name => (hints.lookup name).getD .any

end Hints

end MessageSelector
