import MessageSelector.Text.Blank
import MessageSelector.Token

/-!
# Lexemes

A lexeme class says how many characters at the start of a text belong to it, if any. The classes
are tried in the order of a table, so two-word keywords come before `NOT`, longer symbols before
their first character, and hexadecimal and floating point numbers before integers.
-/

namespace MessageSelector.Token

def isIdentStart (c : Char) : Bool :=
  c.isAlpha || c = '_' || c = '$'

def isIdentBody (c : Char) : Bool :=
  c.isAlphanum || c = '_' || c = '$' || c = '.'

/-- Whether a character is the given capital letter in either case. The Kelvin sign is a `K` and
the long s an `S`. -/
def isLetter (capital c : Char) : Bool :=
  c = capital || c = capital.toLower || (capital = 'K' && c = '\u212a') ||
    (capital = 'S' && c = '\u017f')

/-- The length of a symbol that the text starts with. -/
def symbolLength? (symbol cs : List Char) : Option Nat :=
  if symbol.isPrefixOf cs then some symbol.length else none

/-- The length of a word that the text starts with, in any case. -/
def wordLength? : (word cs : List Char) → Option Nat
  | [], _ => some 0
  | _, [] => none
  | w :: word, c :: cs => if isLetter w c then (wordLength? word cs).map (· + 1) else none

/-- The length of the longest start of the text whose characters all satisfy `p`. -/
def runLength (p : Char → Bool) (cs : List Char) : Nat :=
  (cs.takeWhile p).length

/-- The length of a non-empty run of characters that satisfy `p`. -/
def someRunLength? (p : Char → Bool) (cs : List Char) : Option Nat :=
  if runLength p cs = 0 then none else some (runLength p cs)

/-- The length of words separated by blanks. -/
def wordsLength? : (words : List (List Char)) → (cs : List Char) → Option Nat
  | [], _ => some 0
  | [word], cs => wordLength? word cs
  | word :: words, cs =>
    (wordLength? word cs).bind fun n =>
      (someRunLength? Text.isBlank (cs.drop n)).bind fun blanks =>
        (wordsLength? words (cs.drop (n + blanks))).map fun more => n + blanks + more

/-- The length of a keyword, which no character of an identifier may follow. -/
def keywordLength? (words : List (List Char)) (cs : List Char) : Option Nat :=
  (wordsLength? words cs).bind fun n =>
    match cs.drop n with
    | c :: _ => if isIdentBody c then none else some n
    | [] => some n

/-- The length up to the quote that closes a string, in the text after its opening quote. Two
quotes stand for a quote of the string if a closing quote follows somewhere; otherwise the first of
the last such pair closes it. -/
def closingLength? : List Char → Option Nat
  | [] => none
  | '\'' :: '\'' :: rest =>
    match closingLength? rest with
    | some n => some (n + 2)
    | none => some 1
  | c :: rest => if c = '\'' then some 1 else (closingLength? rest).map (· + 1)

def stringLength? : List Char → Option Nat
  | '\'' :: rest => (closingLength? rest).map (· + 1)
  | _ => none

def hexLength? : List Char → Option Nat
  | '0' :: x :: rest =>
    if x = 'x' ∨ x = 'X' then
      (someRunLength? (fun c => (hexDigit? c).isSome) rest).map (· + 2)
    else none
  | _ => none

/-- The length of an exponent: `e`, an optional sign and digits. -/
def exponentLength? : List Char → Option Nat
  | e :: rest =>
    if e = 'e' ∨ e = 'E' then
      match rest with
      | '+' :: digits | '-' :: digits => (someRunLength? Char.isDigit digits).map (· + 2)
      | digits => (someRunLength? Char.isDigit digits).map (· + 1)
    else none
  | [] => none

/-- The length of a suffix letter, zero if there is none. -/
def suffixLength : List Char → Nat
  | c :: _ => if isFloatSuffix c then 1 else 0
  | [] => 0

/-- The length of an optional exponent and an optional suffix, after `n` characters of `cs`. -/
def scaledLength (cs : List Char) (n : Nat) : Nat :=
  let m := n + (exponentLength? (cs.drop n)).getD 0
  m + suffixLength (cs.drop m)

/-- The length of a floating point number: digits with a point before, between or behind them, or
digits that an exponent or a suffix tells from an integer. -/
def floatLength? (cs : List Char) : Option Nat :=
  let whole := runLength Char.isDigit cs
  match cs.drop whole with
  | '.' :: rest =>
    let fraction := runLength Char.isDigit rest
    if whole = 0 ∧ fraction = 0 then none else some (scaledLength cs (whole + 1 + fraction))
  | rest =>
    if whole = 0 then none
    else if (exponentLength? rest).isSome ∨ suffixLength rest = 1 then
      some (scaledLength cs whole)
    else none

def identLength? : List Char → Option Nat
  | c :: rest => if isIdentStart c then some (runLength isIdentBody rest + 1) else none
  | [] => none

/-- A class of lexemes: the kind of token it yields, none for blanks, and its length function. -/
structure LexemeClass where
  kind? : Option Kind
  length? : List Char → Option Nat

namespace LexemeClass

/-- The class of a keyword, given by its canonical words. -/
def keyword (kind : Kind) (words : List String) : LexemeClass :=
  ⟨some kind, keywordLength? (words.map String.toList)⟩

/-- The class of a symbol, given by the spelling of its kind. -/
def symbol (kind : Kind) : LexemeClass :=
  ⟨some kind, symbolLength? kind.spelling.toList⟩

/-- The classes in the order in which they are tried. -/
def table : List LexemeClass :=
  [⟨none, someRunLength? Text.isBlank⟩,
    keyword .notBetween ["NOT", "BETWEEN"],
    keyword .notIn ["NOT", "IN"],
    keyword .notLike ["NOT", "LIKE"],
    keyword .isNotNull ["IS", "NOT", "NULL"],
    keyword .isNull ["IS", "NULL"],
    keyword .between ["BETWEEN"],
    keyword .inList ["IN"],
    keyword .like ["LIKE"],
    keyword .escape ["ESCAPE"],
    keyword .not ["NOT"],
    keyword .and ["AND"],
    keyword .or ["OR"],
    keyword .trueWord ["TRUE"],
    keyword .falseWord ["FALSE"],
    symbol .notEqual,
    symbol .lessOrEqual,
    symbol .greaterOrEqual,
    symbol .equal,
    symbol .less,
    symbol .greater,
    symbol .plus,
    symbol .minus,
    symbol .times,
    symbol .divide,
    symbol .openParen,
    symbol .closeParen,
    symbol .comma,
    ⟨some .string, stringLength?⟩,
    ⟨some .hex, hexLength?⟩,
    ⟨some .float, floatLength?⟩,
    ⟨some .int, someRunLength? Char.isDigit⟩,
    ⟨some .ident, identLength?⟩]

end LexemeClass

/-- The first lexeme at the start of a text: the kind of token it yields and its length. -/
def firstLexeme? (cs : List Char) : Option (Option Kind × Nat) :=
  LexemeClass.table.findSome? fun lexeme =>
    (lexeme.length? cs).map fun n => (lexeme.kind?, n)

end MessageSelector.Token
