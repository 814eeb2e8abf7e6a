import MessageSelector.Construction
import MessageSelector.Token.Scan

/-!
# Parsing

A parser is a token stream with what has been recognized in it. Recognizing a rule moves the cursor
over its match. Parsing takes all tokens from the cursor on as one selector: it recognizes the root
rule there and builds the tree from what is remembered.
-/

namespace MessageSelector

/-- Why a text is no tree of a selector. -/
inductive SyntaxError where
  | lex (e : LexError)
  | parse (e : ParseError)
  | defect (d : Defect)
deriving DecidableEq, Repr

/-- A token stream and what has been recognized in it. -/
structure Parser where
  stream : TokenStream
  memo : Memo := {}

namespace Parser

def ofList (tokens : List Token) : Parser :=
  ⟨TokenStream.ofList tokens, {}⟩

/-- Recognizes a rule at the cursor, `depth` rules below the root. The cursor moves behind the
match and stays where it is if there is none. -/
def recognize (p : Parser) (rule : Rule) (depth : Nat) : Except ParseError Bool × Parser :=
  match Recognition.rule p.stream (maxRuleDepth + 1 - depth) rule p.stream.position p.memo with
  | (.error e, memo) => (.error e, { p with memo })
  | (.ok none, memo) => (.ok false, { p with memo })
  | (.ok (some found), memo) => (.ok true, ⟨p.stream.reset found.stop, memo⟩)

/-- The tree of what was recognized for a rule at a position. -/
def build (p : Parser) (rule : Rule) (position : Nat) : Except Defect Node :=
  Construction.rule p.stream p.memo (11 * p.stream.size) rule position

/-- Parses the tokens from the cursor on as a selector. The tree is the one recognized at the first
token, so it is the whole selector if the cursor stands there. -/
def parse (p : Parser) : Except SyntaxError Node :=
  if p.stream.isEmpty then .error (.parse .empty)
  else
    match p.recognize Rule.root 0 with
    | (.error e, _) => .error (.parse e)
    | (.ok false, p) =>
      let position := p.memo.furthest
      .error (.parse (.noMatch position (p.stream.offsetAt position) (p.stream.foundAt position)))
    | (.ok true, p) =>
      if p.stream.hasMore then
        let position := p.stream.position
        .error (.parse
          (.trailingTokens position (p.stream.offsetAt position) (p.stream.foundAt position)))
      else
        match p.build Rule.root 0 with
        | .ok tree => .ok tree.number.1
        | .error d => .error (.defect d)

end Parser

def parse (text : String) : Except SyntaxError Node :=
  match tokenize text with
  | .error e => .error (.lex e)
  | .ok tokens => (Parser.ofList tokens).parse

end MessageSelector
