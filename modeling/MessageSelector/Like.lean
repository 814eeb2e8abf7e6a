/-!
# Patterns

A `LIKE` pattern is a sequence of pieces: characters that stand for themselves, `_` for any one
character and `%` for any sequence. An escape character makes the character behind it literal,
whatever that is; at the end of the pattern it stands for itself. A pattern matches whole subjects
only.
-/

namespace MessageSelector.Like

inductive Piece where
  /-- The character itself -/
  | literal (c : Char)
  /-- Any one character -/
  | anyOne
  /-- Any sequence of characters -/
  | anyRun
deriving DecidableEq, Repr

/-- The piece that an unescaped character stands for. -/
def Piece.ofChar (c : Char) : Piece :=
  if c = '_' then .anyOne else if c = '%' then .anyRun else .literal c

def pieces (escape : Option Char) : List Char → List Piece
  | [] => []
  | [c] => if escape = some c then [.literal c] else [Piece.ofChar c]
  | c :: d :: rest =>
    if escape = some c then .literal d :: pieces escape rest
    else Piece.ofChar c :: pieces escape (d :: rest)

/-- Which ends of a pattern, the longest first, match the subject `c :: cs`, given which match
`cs`. The last answer in both lists is that of the empty end. -/
def advance (c : Char) : List Piece → List Bool → List Bool
  | piece :: pieces, here :: behind =>
    let after := advance c pieces behind
    let found :=
      match piece with
      | .literal d => c = d && behind.headD false
      | .anyOne => behind.headD false
      | .anyRun => after.headD false || here
    found :: after
  | _, _ => [false]

/-- Which ends of a pattern match the empty subject. -/
def matchNothing : List Piece → List Bool
  | [] => [true]
  | piece :: pieces =>
    let after := matchNothing pieces
    (piece = .anyRun && after.headD false) :: after

def matchEnds (pieces : List Piece) (subject : List Char) : List Bool :=
  subject.foldr (fun c ends => advance c pieces ends) (matchNothing pieces)

/-- Whether a pattern matches a whole subject. -/
def matches? (pieces : List Piece) (subject : String) : Bool :=
  (matchEnds pieces subject.toList).headD false

/-- The characters that have a meaning of their own in a regular expression. -/
def isMeta (c : Char) : Bool :=
  "\\.+*?()|[]\x7b\x7d^$#&-~".toList.contains c

/-- The regular expression that matches a piece. -/
def Piece.source : Piece → List Char
  | literal c => if isMeta c then ['\\', c] else [c]
  | anyOne => ['.']
  | anyRun => ['.', '*']

/-- The regular expression that matches a pattern, with the point standing for every character and
both ends anchored. -/
def source (pieces : List Piece) : String :=
  "^(?s:" ++ String.ofList (pieces.flatMap Piece.source) ++ ")$"

/-- The escape character of an escape string, which has to be its only one. -/
def escapeChar? (escape : String) : Option Char :=
  match escape.toList with
  | [c] => some c
  | _ => none

/-- The pieces of a pattern string with an optional escape string; none if the escape string is not
one character. -/
def compile? (text : String) (escape : Option String) : Option (List Piece) :=
  match escape with
  | none => some (pieces none text.toList)
  | some escape => (escapeChar? escape).map fun c => pieces (some c) text.toList

end MessageSelector.Like
