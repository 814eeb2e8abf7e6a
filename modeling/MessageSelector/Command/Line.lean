import MessageSelector.Command

/-!
# Command lines

A command line names a command and gives its operand and options. Options may stand before or after
the operand; a short option may carry its value in the same word, and short flags may share a word.
After `--` every word is an operand. A line that does not fit is answered by the exit code for wrong
usage alone.
-/

namespace MessageSelector.CommandLine

inductive Verb where
  | tokens
  | check
  | eval
  | compile
  | run
  | docs
  | doc
deriving DecidableEq, Repr

/-- The options that take a value. -/
inductive Opt where
  | types
  | input
deriving DecidableEq, Repr

namespace Verb

def ofWord? : String → Option Verb
  | "tokens" => some tokens
  | "check" => some check
  | "eval" => some eval
  | "compile" => some compile
  | "run" => some run
  | "docs" => some docs
  | "doc" => some doc
  | _ => none

def takes : Verb → Opt → Bool
  | check, .types | compile, .types | eval, .types | eval, .input | run, .input => true
  | _, _ => false

def operands : Verb → Nat
  | docs => 0
  | _ => 1

end Verb

namespace Opt

def ofLong? : String → Option Opt
  | "types" => some types
  | "input" => some input
  | _ => none

def ofLetter? : Char → Option Opt
  | 't' => some types
  | 'i' => some input
  | _ => none

end Opt

/-- What has been read of a command line. -/
structure Line where
  operands : List String := []
  types : Option String := none
  input : Option String := none

namespace Line

def get (line : Line) : Opt → Option String
  | .types => line.types
  | .input => line.input

/-- The line with one more option, which must not have been given before. -/
def set? (line : Line) (opt : Opt) (value : String) : Option Line :=
  if (line.get opt).isSome then none
  else
    match opt with
    | .types => some { line with types := some value }
    | .input => some { line with input := some value }

def push (line : Line) (operand : String) : Line :=
  { line with operands := operand :: line.operands }

end Line

/-- What one word of a line does. -/
inductive Word where
  | operand
  /-- Flags only -/
  | flags
  /-- An option with its value -/
  | option (opt : Opt) (value : String)
  /-- An option whose value is the next word -/
  | awaits (opt : Opt)
  /-- The word behind which all are operands -/
  | separator
  | wrong
deriving DecidableEq, Repr

/-- Whether a word can be a value or an operand rather than options. -/
def isPlain (cs : List Char) : Bool :=
  match cs with
  | '-' :: _ :: _ => false
  | _ => true

/-- The meaning of a long option: its name, and its value behind an equals sign. -/
def longOption (verb : Verb) (cs : List Char) : Word :=
  let name := String.ofList (cs.takeWhile (· ≠ '='))
  match cs.dropWhile (· ≠ '=') with
  | [] =>
    if name = "verbose" then .flags
    else
      match Opt.ofLong? name with
      | some opt => if verb.takes opt then .awaits opt else .wrong
      | none => .wrong
  | _ :: value =>
    match Opt.ofLong? name with
    | some opt => if verb.takes opt then .option opt (String.ofList value) else .wrong
    | none => .wrong

/-- The meaning of letters behind one dash: flags, and at most one option at their end. The rest of
the word is the value of the option, less an equals sign in front of it. -/
def letters (verb : Verb) : List Char → Word
  | [] => .flags
  | c :: rest =>
    if c = 'v' then letters verb rest
    else
      match Opt.ofLetter? c with
      | some opt =>
        if verb.takes opt then
          match rest with
          | [] => .awaits opt
          | '=' :: value => .option opt (String.ofList value)
          | value => .option opt (String.ofList value)
        else .wrong
      | none => .wrong

/-- The meaning of a word that is no value. -/
def word (verb : Verb) (cs : List Char) : Word :=
  match cs with
  | ['-', '-'] => .separator
  | '-' :: '-' :: rest => longOption verb rest
  | '-' :: c :: rest => letters verb (c :: rest)
  | _ => .operand

def arguments? (verb : Verb) : List String → Option Line
  | [] => some {}
  | w :: rest =>
    match word verb w.toList with
    | .operand => (arguments? verb rest).map (·.push w)
    | .flags => arguments? verb rest
    | .option opt value => (arguments? verb rest).bind (·.set? opt value)
    | .awaits opt =>
      match rest with
      | value :: rest =>
        if isPlain value.toList then (arguments? verb rest).bind (·.set? opt value) else none
      | [] => none
    | .separator => some { operands := rest }
    | .wrong => none

/-- A command line that fits. -/
structure Invocation where
  verb : Verb
  line : Line

/-- Whether a word consists of flags that may stand in front of the command. -/
def isFlags (cs : List Char) : Bool :=
  cs = "--verbose".toList ||
    match cs with
    | '-' :: c :: rest => (c :: rest).all (· = 'v')
    | _ => false

def read? : List String → Option Invocation
  | [] => none
  | w :: rest =>
    if isFlags w.toList then read? rest
    else
      match Verb.ofWord? w with
      | some verb =>
        match arguments? verb rest with
        | some line =>
          if line.operands.length = verb.operands then some ⟨verb, line⟩ else none
        | none => none
      | none => none

structure Outcome where
  exitCode : Nat
  stdout : String
  stderr : String
deriving DecidableEq, Repr

namespace Outcome

def wrongUsage : Outcome := ⟨2, "", "usage: selector <command> [options] [operand]\n"⟩

/-- The answer of a command that succeeds with an output or fails with an error. -/
def ofResult : Except CommandError String → Outcome
  | .ok text => ⟨0, text, ""⟩
  | .error e => ⟨1, "", e.message ++ "\n"⟩

end Outcome

namespace Invocation

/-- Whether a command needs a message that its line does not give. -/
def readsInput (i : Invocation) : Bool :=
  (i.verb = .eval || i.verb = .run) && i.line.input.isNone

/-- The output of a command, `given` standing in for a message that its line does not give. -/
def output (i : Invocation) (given : String) : Except CommandError String :=
  let operand := i.line.operands.headD ""
  let input := some (i.line.input.getD given)
  match i.verb with
  | .tokens => .ok (Manual.ofLines (Command.tokens operand))
  | .check => (Command.check operand i.line.types).map fun r =>
      Manual.ofLines [r.2, "type: " ++ r.1.name]
  | .eval => (Command.eval operand i.line.types input).map fun b =>
      Manual.ofLines [if b then "true" else "false"]
  | .compile => (Command.compile operand i.line.types).map fun text => Manual.ofLines [text]
  | .run => (Command.run operand input).map fun b =>
      Manual.ofLines [if b then "true" else "false"]
  | .docs => .ok Manual.overview
  | .doc => Command.doc operand

end Invocation

/-- The answer to a command line, `given` standing in for a message that it does not give. -/
def answer (words : List String) (given : String) : Outcome :=
  match read? words with
  | some i => Outcome.ofResult (i.output given)
  | none => Outcome.wrongUsage

end MessageSelector.CommandLine
