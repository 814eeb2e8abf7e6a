import MessageSelector.Decimal.Numeral
import MessageSelector.Number
import MessageSelector.Term.Evaluation
import MessageSelector.Text.Blank

/-!
# Reading terms

A program's text is one term with blanks around it and around all its parts. A reader takes the
characters that are left and answers with what it read and what is left then; the offset of an error
is the length of the whole text less what was left where the error was met.

Tuples and lists nest at most `maxTermDepth` deep, which bounds the recursion; the items of one
sequence are bounded by the characters left.
-/

namespace MessageSelector

/-- The greatest nesting of tuples and lists in a program. -/
def maxTermDepth : Nat := 1024

namespace Term.Reader

/-- An error in front of the characters left of a text with `total` characters. -/
def malformedAt (total : Nat) (left : List Char) (problem : String) : ProgramError :=
  .malformed (total - left.length) problem

/-- A character between backticks. -/
def ticked (c : Char) : String :=
  "`" ++ String.ofList [c] ++ "`"

/-- Reads the given characters. -/
def expect (total : Nat) : (wanted left : List Char) → Except ProgramError (List Char)
  | [], left => .ok left
  | want :: _, [] =>
    .error (malformedAt total [] ("expected " ++ ticked want ++ ", found end of input"))
  | want :: wanted, c :: rest =>
    if c = want then expect total wanted rest
    else .error (malformedAt total (c :: rest)
      ("expected " ++ ticked want ++ ", found " ++ ticked c))

/-- The name of an atom and what follows it, after its opening quote. -/
def atomName? : List Char → Option (List Char × List Char)
  | [] => none
  | c :: rest =>
    if c = '\'' then some ([], rest)
    else (atomName? rest).map fun r => (c :: r.1, r.2)

/-- Reads an atom after its opening quote. -/
def atom (total : Nat) (left : List Char) : Except ProgramError (Term × List Char) :=
  match atomName? left with
  | some (name, rest) => .ok (.atom (String.ofList name), rest)
  | none => .error (malformedAt total [] "unterminated atom")

/-- The characters of a binary string and what follows its closing quote. -/
def binaryBody? : List Char → Option (List Char × List Char)
  | [] => none
  | ['\\'] => none
  | '\\' :: c :: rest => (binaryBody? rest).map fun r => (c :: r.1, r.2)
  | c :: rest =>
    if c = '"' then some ([], rest)
    else (binaryBody? rest).map fun r => (c :: r.1, r.2)

def binary (total : Nat) (left : List Char) : Except ProgramError (Term × List Char) := do
  let left ← expect total ['<', '<', '"'] left
  match binaryBody? left with
  | none => .error (malformedAt total [] "unterminated binary")
  | some (body, left) =>
    let left ← expect total ['>', '>'] left
    return (.binary (String.ofList body), left)

/-- Whether a character marks an exponent. -/
def isMark (c : Char) : Bool :=
  c = 'e' || c = 'E'

/-- The number of characters of a numeral behind its sign: digits, points and exponent marks, and a
sign directly behind a mark. -/
def numeralLength (afterMark : Bool) : List Char → Nat
  | [] => 0
  | c :: rest =>
    if c.isDigit || c = '.' || isMark c || (afterMark && (c = '+' || c = '-')) then
      numeralLength (isMark c) rest + 1
    else 0

/-- The length of a numeral. -/
def signedNumeralLength : List Char → Nat
  | '-' :: rest => numeralLength false rest + 1
  | cs => numeralLength false cs

/-- The number a numeral denotes: floating point if it has a point or an exponent, and otherwise an
integer or an unsigned word. -/
def number? (numeral : List Char) : Option Number :=
  if numeral.any fun c => c = '.' || isMark c then (Decimal.float? numeral).map .float
  else
    match Decimal.int64? numeral with
    | some n => some (.int n)
    | none => (Decimal.uint64? numeral).map Number.ofUInt64

def ofNumber : Number → Term
  | .int n => .int n
  | .float x => .float x

def number (total : Nat) (left : List Char) : Except ProgramError (Term × List Char) :=
  let numeral := left.take (signedNumeralLength left)
  match number? numeral with
  | some n => .ok (ofNumber n, left.drop (signedNumeralLength left))
  | none => .error
    (malformedAt total left ("malformed number `" ++ String.ofList numeral ++ "`"))

/-- Reads the items of a non-empty sequence and the bracket that closes it. There are at most as
many items as characters left. -/
def items (total : Nat) (term : List Char → Except ProgramError (Term × List Char)) (close : Char) :
    (bound : Nat) → List Char → Except ProgramError (List Term × List Char)
  | 0, left => .error (malformedAt total left "unexpected end of input")
  | bound + 1, left => do
    let (t, left) ← term left
    match Text.skipBlanks left with
    | [] => .error (malformedAt total [] ("missing " ++ ticked close))
    | c :: rest =>
      if c = ',' then
        let (more, left) ← items total term close bound rest
        return (t :: more, left)
      else if c = close then return ([t], rest)
      else .error (malformedAt total (c :: rest)
        ("expected `,` or " ++ ticked close ++ ", found " ++ ticked c))

/-- Reads a sequence after its opening bracket. -/
def sequence (total : Nat) (term : List Char → Except ProgramError (Term × List Char))
    (close : Char) (left : List Char) : Except ProgramError (List Term × List Char) :=
  match Text.skipBlanks left with
  | c :: rest =>
    if c = close then .ok ([], rest)
    else items total term close (c :: rest).length (c :: rest)
  | [] => items total term close 0 []

/-- Reads a term in which `room` sequences may nest. -/
def term (total : Nat) (room : Nat) (left : List Char) : Except ProgramError (Term × List Char) :=
  match Text.skipBlanks left with
  | [] => .error (malformedAt total [] "unexpected end of input")
  | c :: rest =>
    if c = '\'' then atom total rest
    else if c = '<' then binary total (c :: rest)
    else if c = '\x7b' then
      match room with
      | 0 => .error (malformedAt total (c :: rest) "terms nested too deeply")
      | room + 1 => (sequence total (term total room) '\x7d' rest).map fun r => (.tuple r.1, r.2)
    else if c = '[' then
      match room with
      | 0 => .error (malformedAt total (c :: rest) "terms nested too deeply")
      | room + 1 => (sequence total (term total room) ']' rest).map fun r => (.list r.1, r.2)
    else if c = '-' || c.isDigit then number total (c :: rest)
    else .error (malformedAt total (c :: rest) ("unexpected " ++ ticked c))

end Term.Reader

namespace Term

/-- Reads a program: one term with nothing but blanks around it. -/
def read (text : String) : Except ProgramError Term := do
  let total := text.length
  let (t, left) ← Reader.term total maxTermDepth text.toList
  match Text.skipBlanks left with
  | [] => return t
  | c :: rest =>
    .error (Reader.malformedAt total (c :: rest) ("unexpected trailing " ++ Reader.ticked c))

end Term

end MessageSelector
