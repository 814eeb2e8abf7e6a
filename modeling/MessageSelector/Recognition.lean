import Std.Data.HashMap
import MessageSelector.Grammar
import MessageSelector.Token.Stream

/-!
# Recognition

The first pass of the parser. A rule is recognized at a position by trying its alternatives in
order; the first whose symbols all match wins. What was found for a rule at a position is
remembered, so a start that alternatives share is matched once, and a second pass can build the tree
of the matches that were chosen.

The number of rules that may still nest is part of every call. It bounds the recursion, and running
out of it is an answer of its own: the tokens nest too deeply.
-/

namespace MessageSelector

/-- The greatest number of rules that may nest below the root. A level of brackets takes ten rules
and a link of a chain of operators one. -/
def maxRuleDepth : Nat := 512

/-- Why tokens are no selector. -/
inductive ParseError where
  /-- No alternative of the root rule matches; `position` is the furthest token that did not. -/
  | noMatch (position offset : Nat) (found : String)
  /-- The root rule matches, but tokens follow. -/
  | trailingTokens (position offset : Nat) (found : String)
  /-- Rules nest deeper than `maxRuleDepth`. -/
  | tooDeep (position offset : Nat)
  | empty
deriving DecidableEq, Repr

def ParseError.message : ParseError → String
  | noMatch position offset found =>
    "syntax error at token " ++ toString position ++ " (offset " ++ toString offset ++
      "): unexpected " ++ found
  | trailingTokens position offset found =>
    "syntax error at token " ++ toString position ++ " (offset " ++ toString offset ++
      "): unexpected trailing `" ++ found ++ "`"
  | tooDeep position offset =>
    "selector nested too deeply at token " ++ toString position ++ " (offset " ++
      toString offset ++ ")"
  | empty => "empty selector"

namespace TokenStream

/-- The offset in the text of the token at a position; behind the last token, the end of that
token. -/
def offsetAt (s : TokenStream) (position : Nat) : Nat :=
  match s.get? position with
  | some t => t.offset
  | none =>
    match position with
    | 0 => 0
    | last + 1 =>
      match s.get? last with
      | some t => t.stop
      | none => 0

/-- What stands at a position, in words. -/
def foundAt (s : TokenStream) (position : Nat) : String :=
  match s.get? position with
  | some t => t.text
  | none => "end of input"

end TokenStream

/-- How a rule matched. -/
structure Match where
  alternative : Nat
  /-- The position behind the match. -/
  stop : Nat
deriving DecidableEq, Repr

/-- What recognition has found so far. -/
structure Memo where
  /-- The match of a rule at a position, or that there is none. -/
  entries : Std.HashMap (Rule × Nat) (Option Match) := ∅
  /-- The furthest position whose token was not the one asked for. -/
  furthest : Nat := 0

namespace Memo

/-- Notes that the token at a position was not the one asked for. -/
def reach (memo : Memo) (position : Nat) : Memo :=
  { memo with furthest := max memo.furthest position }

/-- Notes what was found for a rule at a position. -/
def record (memo : Memo) (rule : Rule) (position : Nat) (found : Option Match) : Memo :=
  { memo with entries := memo.entries.insert (rule, position) found }

end Memo

namespace Recognition

/-- An attempt to match something: an answer unless the tokens nest too deeply, and in any case the
memo afterwards. -/
abbrev Attempt (α : Type) := Memo → Except ParseError (Option α) × Memo

/-- Recognizes the symbols of an alternative from a position on, sub-rules by `sub`. The answer is
the position behind the last symbol. -/
def symbols (s : TokenStream) (sub : Rule → Nat → Attempt Match) :
    List Symbol → Nat → Attempt Nat
  | [], position, memo => (.ok (some position), memo)
  | .token kind :: rest, position, memo =>
    match s.get? position with
    | none => (.ok none, memo.reach position)
    | some token =>
      if token.kind = kind then symbols s sub rest (position + 1) memo
      else (.ok none, memo.reach position)
  | .rule rule :: rest, position, memo =>
    match sub rule position memo with
    | (.error e, memo) => (.error e, memo)
    | (.ok none, memo) => (.ok none, memo)
    | (.ok (some found), memo) => symbols s sub rest found.stop memo

/-- Tries alternatives at a position, the first of them having the given index. -/
def alternatives (s : TokenStream) (sub : Rule → Nat → Attempt Match) (position : Nat) :
    List Alternative → Nat → Attempt Match
  | [], _, memo => (.ok none, memo)
  | alternative :: rest, index, memo =>
    match symbols s sub alternative.symbols position memo with
    | (.error e, memo) => (.error e, memo)
    | (.ok none, memo) => alternatives s sub position rest (index + 1) memo
    | (.ok (some stop), memo) => (.ok (some ⟨index, stop⟩), memo)

/-- Recognizes a rule at a position, where `room` rules may nest, itself included. -/
def rule (s : TokenStream) : (room : Nat) → Rule → Nat → Attempt Match
  | 0, _, position, memo => (.error (.tooDeep position (s.offsetAt position)), memo)
  | room + 1, r, position, memo =>
    match memo.entries[(r, position)]? with
    | some found => (.ok found, memo)
    | none =>
      match alternatives s (rule s room) position r.alternatives 0 memo with
      | (.ok found, memo) => (.ok found, memo.record r position found)
      | failed => failed

end Recognition

end MessageSelector
