import MessageSelector.Decimal.FloatFormat

/-!
# Terms

A program is one term: an atom, a number, a binary string, or a tuple or list of terms. The printed
form of a term is what the compiler emits, so the pieces of that form are defined here for both.
-/

namespace MessageSelector

inductive Term where
  | atom (name : String)
  | int (n : Int64)
  | float (x : Float)
  | binary (s : String)
  | tuple (items : List Term)
  | list (items : List Term)

namespace Term

/-- The text of an atom: its name between quotes. -/
def atomText (name : String) : String :=
  "'" ++ name ++ "'"

/-- The characters of a binary string, with a backslash before every quote and backslash. -/
def escapeBinary : List Char → List Char
  | [] => []
  | c :: rest =>
    if c = '"' ∨ c = '\\' then '\\' :: c :: escapeBinary rest else c :: escapeBinary rest

def binaryText (s : String) : String :=
  "<<\"" ++ String.ofList (escapeBinary s.toList) ++ "\">>"

def integerText (n : Int) : String :=
  String.ofList (Decimal.integer n)

/-- The numeral of a finite floating point number, which always has a decimal point. -/
def floatText? (x : Float) : Option String :=
  if x.isFinite then some (Decimal.FloatFormat.program.write x) else none

/-- The text of a tuple, given the texts of its items. -/
def tupleText (items : List String) : String :=
  "\x7b" ++ String.intercalate ", " items ++ "\x7d"

/-- The text of a list, given the texts of its items. -/
def listText (items : List String) : String :=
  "[" ++ String.intercalate ", " items ++ "]"

mutual

/-- The text of a term. A number that is not finite has no numeral and is written by name. -/
def print : Term → String
  | atom name => atomText name
  | int n => integerText n.toInt
  | float x => Decimal.FloatFormat.program.write x
  | binary s => binaryText s
  | tuple items => tupleText (printAll items)
  | list items => listText (printAll items)

def printAll : List Term → List String
  | [] => []
  | t :: rest => print t :: printAll rest

end

end Term

end MessageSelector
