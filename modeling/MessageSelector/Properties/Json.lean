import MessageSelector.Decimal.Integer
import MessageSelector.Json
import MessageSelector.Properties

/-!
# Properties from JSON

A message is given as a JSON object of scalars. A member that is null is a missing property.
-/

namespace MessageSelector.Properties

/-- Why a JSON value does not give properties. -/
inductive JsonError where
  | notObject
  | notScalar (name : String)
deriving DecidableEq, Repr

def JsonError.message : JsonError → String
  | notObject => "properties must be a JSON object"
  | notScalar name => "property `" ++ name ++ "` must be a scalar"

/-- The value of a scalar. An integer outside the signed 64-bit range is floating point. -/
def ofScalar? : Json → Option Value
  | .null => some .unknown
  | .bool b => some (.bool b)
  | .int n =>
    match Decimal.fitInt64 n with
    | some m => some (.number (.int m))
    | none => some (.number (.float (Float.ofInt n)))
  | .float x => some (.number (.float x))
  | .string s => some (.string s)
  | .array _ | .object _ => none

/-- Sets the properties that the members of an object give. -/
def insertMembers (props : Properties) : List (String × Json) → Except JsonError Properties
  | [] => .ok props
  | (name, member) :: rest =>
    match ofScalar? member with
    | some v => insertMembers (props.insert name v) rest
    | none => .error (.notScalar name)

def ofJson : Json → Except JsonError Properties
  | .object members => insertMembers empty members
  | _ => .error .notObject

end MessageSelector.Properties
