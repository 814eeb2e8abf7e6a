import MessageSelector.Decimal.FloatFormat
import MessageSelector.Decimal.Numeral
import MessageSelector.Text.Quoted

/-!
# Tokens

A token is a kind, the exact text it was scanned from and the number of characters before it. What
a literal stands for is its payload, computed from kind and text alone; a numeric literal too large
for its representation has none.
-/

namespace MessageSelector

namespace Token

inductive Kind where
  /-- `NOT BETWEEN` -/
  | notBetween
  /-- `NOT IN` -/
  | notIn
  /-- `NOT LIKE` -/
  | notLike
  /-- `IS NOT NULL` -/
  | isNotNull
  /-- `IS NULL` -/
  | isNull
  | between
  /-- `IN` -/
  | inList
  | like
  | escape
  | not
  | and
  | or
  /-- `TRUE` -/
  | trueWord
  /-- `FALSE` -/
  | falseWord
  | equal
  | notEqual
  | less
  | lessOrEqual
  | greater
  | greaterOrEqual
  | plus
  | minus
  | times
  | divide
  | openParen
  | closeParen
  | comma
  /-- A quoted string, in which `''` stands for one quote -/
  | string
  /-- An integer written in hexadecimal after `0x` -/
  | hex
  | float
  /-- An integer written in decimal -/
  | int
  | ident
deriving DecidableEq, Repr

namespace Kind

/-- The canonical spelling of a keyword or symbol, and the name of any other kind. -/
def spelling : Kind → String
  | notBetween => "NOT BETWEEN"
  | notIn => "NOT IN"
  | notLike => "NOT LIKE"
  | isNotNull => "IS NOT NULL"
  | isNull => "IS NULL"
  | between => "BETWEEN"
  | inList => "IN"
  | like => "LIKE"
  | escape => "ESCAPE"
  | not => "NOT"
  | and => "AND"
  | or => "OR"
  | trueWord => "TRUE"
  | falseWord => "FALSE"
  | equal => "="
  | notEqual => "<>"
  | less => "<"
  | lessOrEqual => "<="
  | greater => ">"
  | greaterOrEqual => ">="
  | plus => "+"
  | minus => "-"
  | times => "*"
  | divide => "/"
  | openParen => "("
  | closeParen => ")"
  | comma => ","
  | string => "string"
  | hex => "hex"
  | float => "float"
  | int => "integer"
  | ident => "identifier"

/-- Whether a token of this kind can stand alone as a leaf of a tree. -/
def isOperand : Kind → Bool
  | trueWord | falseWord | string | hex | float | int | ident => true
  | _ => false

/-- Whether a token of this kind stands for a number. -/
def isNumeric : Kind → Bool
  | hex | float | int => true
  | _ => false

end Kind

/-- What a literal or identifier stands for. -/
inductive Payload where
  | ident (name : String)
  | string (s : String)
  | int (n : Int64)
  | float (x : Float)
  | hex (n : UInt64)
deriving BEq

def hexDigit? (c : Char) : Option Nat :=
  if c.isDigit then some (c.toNat - '0'.toNat)
  else if 'a' ≤ c ∧ c ≤ 'f' then some (c.toNat - 'a'.toNat + 10)
  else if 'A' ≤ c ∧ c ≤ 'F' then some (c.toNat - 'A'.toNat + 10)
  else none

/-- The number that a text of hexadecimal digits denotes after the digits read so far. -/
def hexValueFrom (sofar : Nat) : List Char → Option Nat
  | [] => some sofar
  | c :: rest => (hexDigit? c).bind fun d => hexValueFrom (16 * sofar + d) rest

/-- The text behind its first two bytes, if a character ends there. -/
def afterTwoBytes? : List Char → Option (List Char)
  | a :: rest =>
    if a.utf8Size = 2 then some rest
    else if a.utf8Size = 1 then
      match rest with
      | b :: rest => if b.utf8Size = 1 then some rest else none
      | [] => none
    else none
  | [] => none

/-- Reads a hexadecimal literal, whose digits start after the two bytes of its marker and whose
value must fit 64 bits. -/
def hex? (cs : List Char) : Option UInt64 :=
  match afterTwoBytes? cs with
  | none | some [] => none
  | some digits => (hexValueFrom 0 digits).bind Decimal.fitUInt64

/-- The letters that may follow a floating point literal. -/
def isFloatSuffix (c : Char) : Bool :=
  c = 'f' || c = 'F' || c = 'd' || c = 'D'

/-- Reads a floating point literal, whose trailing suffix letters do not count and whose value must
be finite. -/
def float? (cs : List Char) : Option Float :=
  (Decimal.float? (cs.reverse.dropWhile isFloatSuffix).reverse).filter Float.isFinite

end Token

structure Token where
  kind : Token.Kind
  /-- The characters the token was scanned from. -/
  text : String
  /-- The number of characters before the token. -/
  offset : Nat
deriving DecidableEq, Repr

namespace Token

/-- What the token stands for, if it is an identifier or a literal with a value. -/
def payload? (t : Token) : Option Payload :=
  match t.kind with
  | .ident => some (.ident t.text)
  | .string => some (.string (Text.unquote t.text))
  | .int => (Decimal.int64? t.text.toList).map .int
  | .float => (float? t.text.toList).map .float
  | .hex => (hex? t.text.toList).map .hex
  | _ => none

/-- The string a string literal stands for. -/
def string? (t : Token) : Option String :=
  match t.payload? with
  | some (.string s) => some s
  | _ => none

/-- The number of characters up to the end of the token. -/
def stop (t : Token) : Nat :=
  t.offset + t.text.length

/-- The token in words: its kind, its text and where it stands. -/
def describe (t : Token) : String :=
  t.kind.spelling ++ " `" ++ t.text ++ "` at " ++ toString t.offset

end Token

end MessageSelector
