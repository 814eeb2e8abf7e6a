import MessageSelector.Json.Text

/-!
# Printing JSON

A value is printed without any space.
-/

namespace MessageSelector.Json

mutual

def print : Json → String
  | null => "null"
  | bool b => if b then "true" else "false"
  | int n => String.ofList (Decimal.integer n)
  | float x => Decimal.FloatFormat.json.write x
  | string s => stringText s
  | array items => "[" ++ String.intercalate "," (printItems items) ++ "]"
  | object members => "\x7b" ++ String.intercalate "," (printMembers members) ++ "\x7d"

def printItems : List Json → List String
  | [] => []
  | v :: rest => print v :: printItems rest

def printMembers : List (String × Json) → List String
  | [] => []
  | (name, v) :: rest => (stringText name ++ ":" ++ print v) :: printMembers rest

end

end MessageSelector.Json
