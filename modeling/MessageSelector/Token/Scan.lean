import MessageSelector.Token.Lexeme

/-!
# Scanning

A scan cuts a text into blanks and tokens from the left. It stops at the end of the text, where no
lexeme starts, or in front of a number too large for its representation, and reports what is left.
-/

namespace MessageSelector

/-- What a scan finds in a text. -/
structure Scan where
  tokens : List Token
  /-- The rest of the text that was not scanned; empty when all of it was. -/
  residue : String
  /-- The number of characters before the residue. -/
  residueOffset : Nat
deriving DecidableEq, Repr

/-- A text in which something is no token. -/
structure LexError where
  offset : Nat
  residue : String
deriving DecidableEq, Repr

def LexError.message (e : LexError) : String :=
  "unrecognized input at offset " ++ toString e.offset ++ ": `" ++ e.residue ++ "`"

namespace Scan

/-- Whether a token is a number without a value, at which a scan stops. -/
def stopsAt (t : Token) : Bool :=
  t.kind.isNumeric && t.payload?.isNone

def push (t : Token) (s : Scan) : Scan :=
  { s with tokens := t :: s.tokens }

/-- Scans a text that `offset` characters precede. -/
def textFrom (offset : Nat) (cs : List Char) : Scan :=
  match cs with
  | [] => ⟨[], "", offset⟩
  | c :: rest =>
    match Token.firstLexeme? (c :: rest) with
    | none | some (_, 0) => ⟨[], String.ofList (c :: rest), offset⟩
    | some (none, n + 1) => textFrom (offset + (n + 1)) (rest.drop n)
    | some (some kind, n + 1) =>
      let token : Token := ⟨kind, String.ofList (c :: rest.take n), offset⟩
      if stopsAt token then ⟨[], String.ofList (c :: rest), offset⟩
      else push token (textFrom (offset + (n + 1)) (rest.drop n))
termination_by cs.length
decreasing_by
  all_goals
    simp only [List.length_drop, List.length_cons]
    omega

def text (s : String) : Scan :=
  textFrom 0 s.toList

def isComplete (s : Scan) : Bool :=
  s.residue.isEmpty

/-- The tokens of a text that is all tokens and blanks. -/
def result (s : Scan) : Except LexError (List Token) :=
  if s.isComplete then .ok s.tokens else .error ⟨s.residueOffset, s.residue⟩

end Scan

/-- The tokens of a text, or the first place where there is none. -/
def tokenize (s : String) : Except LexError (List Token) :=
  (Scan.text s).result

end MessageSelector
