import MessageSelector.ExprType
import MessageSelector.Json.Printer

/-!
# Hints from JSON

Type hints are given as a JSON object from the names of identifiers to the names of types.
-/

namespace MessageSelector.Hints

/-- Why a JSON value does not give hints. -/
inductive JsonError where
  | notObject
  /-- A member that is no name of a type, with its text -/
  | unknownType (name text : String)
deriving DecidableEq, Repr

def JsonError.message : JsonError → String
  | notObject => "type hints must be a JSON object"
  | unknownType name text => "unknown type for `" ++ name ++ "`: " ++ text

def type? : Json → Option ExprType
  | .string s => ExprType.ofName? s
  | _ => none

/-- The hints that the members of an object give. -/
def ofMembers : List (String × Json) → Except JsonError (List (String × ExprType))
  | [] => .ok []
  | (name, member) :: rest =>
    match type? member with
    | some type => (ofMembers rest).map ((name, type) :: ·)
    | none => .error (.unknownType name member.print)

/-- The hints that a JSON value gives, ordered by name. -/
def ofJson : Json → Except JsonError (List (String × ExprType))
  | .object members => ofMembers members
  | _ => .error .notObject

end MessageSelector.Hints
