/-!
# Quoted text

A selector writes a string between single quotes, and a quote inside the string twice. `quote`
writes that form and `unquote` reads it; `unquote` is total, so a text without its outer quotes is
read as it stands.
-/

namespace MessageSelector.Text

/-- Every quote written twice. -/
def doubleQuotes : List Char → List Char
  | [] => []
  | c :: rest => if c = '\'' then '\'' :: '\'' :: doubleQuotes rest else c :: doubleQuotes rest

/-- Every pair of quotes, taken from the left, read as one quote. -/
def halveQuotes : List Char → List Char
  | '\'' :: '\'' :: rest => '\'' :: halveQuotes rest
  | c :: rest => c :: halveQuotes rest
  | [] => []

/-- The text between two outer quotes, or the whole text if one of them is missing. -/
def betweenQuotes (cs : List Char) : List Char :=
  match cs with
  | '\'' :: rest => if rest.getLast? = some '\'' then rest.dropLast else cs
  | _ => cs

def quote (s : String) : String :=
  String.ofList ('\'' :: (doubleQuotes s.toList ++ ['\'']))

def unquote (text : String) : String :=
  String.ofList (halveQuotes (betweenQuotes text.toList))

end MessageSelector.Text
