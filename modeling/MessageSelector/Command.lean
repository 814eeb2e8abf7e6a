import MessageSelector.Hints.Json
import MessageSelector.Json.Reader
import MessageSelector.Manual
import MessageSelector.Properties.Json
import MessageSelector.Selector
import MessageSelector.Term.Reader

/-!
# Commands

What can be done with a selector from outside: list its tokens, check it, evaluate it against a
message, compile it, run a program against a message, and read the manual. Messages and type hints
are JSON texts.
-/

namespace MessageSelector

inductive CommandError where
  | selector (e : SelectorError)
  /-- The selector has no value. -/
  | evaluation (d : Defect)
  | compilation (e : CompileError)
  | program (e : ProgramError)
  | json
  | noInput
  | properties (e : Properties.JsonError)
  | hints (e : Hints.JsonError)
  | unknownChapter (name : String)
deriving DecidableEq, Repr

def CommandError.message : CommandError → String
  | selector e => "Invalid selector: " ++ e.message
  | evaluation d => "Evaluation failed: " ++ d.message
  | compilation e => "Compilation failed: " ++ e.message
  | program e => "Invalid program: " ++ e.message
  | json => "Invalid JSON"
  | noInput => "No input provided. Use --input or pipe JSON to stdin."
  | properties e => "Invalid properties: " ++ e.message
  | hints e => "Invalid type hints: " ++ e.message
  | unknownChapter name =>
    "Unknown category: '" ++ name ++ "'\nRun 'selector docs' to see available categories."

namespace Command

def readJson (text : String) : Except CommandError Json :=
  match Json.read? text with
  | some v => .ok v
  | none => .error .json

def readProperties (text : String) : Except CommandError Properties := do
  let v ← readJson text
  (Properties.ofJson v).mapError .properties

/-- Reads type hints, ordered by name. -/
def readHints (text : String) : Except CommandError (List (String × ExprType)) := do
  let v ← readJson text
  (Hints.ofJson v).mapError .hints

/-- The selector of a text under the type hints that are given, if any are. -/
def build (text : String) (types : Option String) : Except CommandError Selector := do
  let hints ←
    match types with
    | some types => (readHints types).map Hints.ofList
    | none => .ok Hints.empty
  (Selector.withHints text hints).mapError .selector

/-- The message that has to be given. -/
def require (input : Option String) : Except CommandError String :=
  match input with
  | some text => .ok text
  | none => .error .noInput

/-- The tokens of a text, a line each, and what is left behind them. -/
def tokens (text : String) : List String :=
  let scan := Scan.text text
  let lines := scan.tokens.map Token.describe
  if scan.isComplete then lines
  else lines ++ ["residue `" ++ scan.residue ++ "` at " ++ toString scan.residueOffset]

def check (text : String) (types : Option String) : Except CommandError (ExprType × String) := do
  let s ← build text types
  return (s.type, s.canonical)

def eval (text : String) (types input : Option String) : Except CommandError Bool := do
  let s ← build text types
  let message ← require input
  let props ← readProperties message
  (s.accepts props.source).mapError .evaluation

def compile (text : String) (types : Option String) : Except CommandError String := do
  let s ← build text types
  s.compile.mapError .compilation

def run (program : String) (input : Option String) : Except CommandError Bool := do
  let t ← (Term.read program).mapError .program
  let message ← require input
  let props ← readProperties message
  ((t.value props.source).map Value.isTrue).mapError .program

def doc (name : String) : Except CommandError String :=
  match Manual.Chapter.ofName? name with
  | some chapter => .ok chapter.text
  | none => .error (.unknownChapter name)

end Command

end MessageSelector
