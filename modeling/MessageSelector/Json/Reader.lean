import Std.Data.TreeMap
import MessageSelector.Json.Number
import MessageSelector.Json.Text

/-!
# Reading JSON

A JSON text is one value with nothing but white space around it. Arrays and objects nest less than
`nestingLimit` deep. A member of an object that is given more than once counts as given last.
-/

namespace MessageSelector.Json

/-- The nesting at which a text is rejected. -/
def nestingLimit : Nat := 128

/-- Whether a character may stand between the parts of a text. -/
def isSpace (c : Char) : Bool :=
  c = ' ' || c = '\n' || c = '\t' || c = '\r'

def skipSpace (cs : List Char) : List Char :=
  cs.dropWhile isSpace

/-- The members of an object by name, a later one in place of an earlier one. -/
def ofMembers (members : List (String × Json)) : Json :=
  .object (members.foldl (fun all m => all.insert m.1 m.2) (∅ : Std.TreeMap String Json)).toList

/-- Reads a given word. -/
def word? (word : List Char) (found : Json) (cs : List Char) : Option (Json × List Char) :=
  if word.isPrefixOf cs then some (found, cs.drop word.length) else none

/-- Reads what stands between the brackets of a non-empty sequence, and the closing one. -/
def entries? {α : Type} (entry : List Char → Option (α × List Char)) (close : Char) :
    (bound : Nat) → List Char → Option (List α × List Char)
  | 0, _ => none
  | bound + 1, cs => do
    let (first, rest) ← entry cs
    match skipSpace rest with
    | c :: rest =>
      if c = ',' then
        let (more, rest) ← entries? entry close bound rest
        return (first :: more, rest)
      else if c = close then return ([first], rest)
      else none
    | [] => none

/-- Reads a sequence after its opening bracket. -/
def sequence? {α : Type} (entry : List Char → Option (α × List Char)) (close : Char)
    (cs : List Char) : Option (List α × List Char) :=
  match skipSpace cs with
  | c :: rest =>
    if c = close then some ([], rest) else entries? entry close (c :: rest).length (c :: rest)
  | [] => none

def member? (value : List Char → Option (Json × List Char)) (cs : List Char) :
    Option ((String × Json) × List Char) := do
  let (name, rest) ← string? (skipSpace cs)
  match skipSpace rest with
  | ':' :: rest =>
    let (v, rest) ← value rest
    return ((name, v), rest)
  | _ => none

/-- Reads a value in which `room` arrays and objects may nest. -/
def value? (room : Nat) (cs : List Char) : Option (Json × List Char) :=
  match skipSpace cs with
  | [] => none
  | c :: rest =>
    if c = '\x7b' then
      match room with
      | 0 => none
      | room + 1 =>
        (sequence? (member? (value? room)) '\x7d' rest).map fun r => (ofMembers r.1, r.2)
    else if c = '[' then
      match room with
      | 0 => none
      | room + 1 => (sequence? (value? room) ']' rest).map fun r => (.array r.1, r.2)
    else if c = '"' then (string? (c :: rest)).map fun r => (.string r.1, r.2)
    else if c = 't' then word? "true".toList (.bool true) (c :: rest)
    else if c = 'f' then word? "false".toList (.bool false) (c :: rest)
    else if c = 'n' then word? "null".toList .null (c :: rest)
    else number? (c :: rest)

def read? (text : String) : Option Json := do
  let (v, rest) ← value? (nestingLimit - 1) text.toList
  if (skipSpace rest).isEmpty then some v else none

end MessageSelector.Json
