import MessageSelector.Decimal.FloatFormat
import MessageSelector.Json
import MessageSelector.Token

/-!
# Strings of JSON

A string stands between double quotes. Quotes, backslashes and control characters in it are written
with a backslash; any other character may be, by its UTF-16 units. Units that are half of a pair
without the other half are no character.
-/

namespace MessageSelector.Json

/-- The number of four hexadecimal digits, and what follows them. -/
def unit? : List Char → Option (Nat × List Char)
  | a :: b :: c :: d :: rest => (Token.hexValueFrom 0 [a, b, c, d]).map fun n => (n, rest)
  | _ => none

/-- The character of the UTF-16 units behind a first `\u`, and what follows them. -/
def escapedUnits? (cs : List Char) : Option (Char × List Char) := do
  let (n, rest) ← unit? cs
  if 0xdc00 ≤ n ∧ n ≤ 0xdfff then none
  else if 0xd800 ≤ n ∧ n ≤ 0xdbff then
    match rest with
    | '\\' :: 'u' :: rest =>
      let (low, rest) ← unit? rest
      if 0xdc00 ≤ low ∧ low ≤ 0xdfff then
        return (Char.ofNat (0x10000 + (n - 0xd800) * 0x400 + (low - 0xdc00)), rest)
      else none
    | _ => none
  else return (Char.ofNat n, rest)

/-- The character that a letter behind a backslash stands for. -/
def escapedLetter? : Char → Option Char
  | '"' => some '"'
  | '\\' => some '\\'
  | '/' => some '/'
  | 'b' => some '\x08'
  | 'f' => some '\x0c'
  | 'n' => some '\n'
  | 'r' => some '\r'
  | 't' => some '\t'
  | _ => none

/-- The characters of a string and what follows its closing quote, from behind its opening quote.
The bound is at least the number of characters left. -/
def stringBody? : (bound : Nat) → List Char → Option (List Char × List Char)
  | 0, _ => none
  | _ + 1, [] => none
  | bound + 1, c :: rest =>
    if c = '"' then some ([], rest)
    else if c = '\\' then do
      let (d, rest) ←
        match rest with
        | 'u' :: rest => escapedUnits? rest
        | letter :: rest => (escapedLetter? letter).map fun d => (d, rest)
        | [] => none
      let (body, rest) ← stringBody? bound rest
      return (d :: body, rest)
    else if c.toNat < 0x20 then none
    else (stringBody? bound rest).map fun r => (c :: r.1, r.2)

def string? : List Char → Option (String × List Char)
  | '"' :: rest => (stringBody? rest.length rest).map fun r => (String.ofList r.1, r.2)
  | _ => none

/-- A hexadecimal digit below sixteen, in lower case. -/
def hexChar (d : Nat) : Char :=
  if d < 10 then Char.ofNat ('0'.toNat + d) else Char.ofNat ('a'.toNat + d - 10)

def escapeChar (c : Char) : List Char :=
  if c = '"' then ['\\', '"']
  else if c = '\\' then ['\\', '\\']
  else if c = '\x08' then ['\\', 'b']
  else if c = '\x0c' then ['\\', 'f']
  else if c = '\n' then ['\\', 'n']
  else if c = '\r' then ['\\', 'r']
  else if c = '\t' then ['\\', 't']
  else if c.toNat < 0x20 then ['\\', 'u', '0', '0', hexChar (c.toNat / 16), hexChar (c.toNat % 16)]
  else [c]

def stringText (s : String) : String :=
  "\"" ++ String.ofList (s.toList.flatMap escapeChar) ++ "\""

end MessageSelector.Json
