/-!
# JSON values

The messages and the type hints that the command line takes are JSON texts.
-/

namespace MessageSelector

/-- A JSON value. The members of an object have distinct names and are ordered by name. -/
inductive Json where
  | null
  | bool (b : Bool)
  /-- An integer in the signed or unsigned 64-bit range -/
  | int (n : Int)
  /-- Any other number -/
  | float (x : Float)
  | string (s : String)
  | array (items : List Json)
  | object (members : List (String × Json))

end MessageSelector
