import MessageSelector.Like
import MessageSelector.Operator
import MessageSelector.Properties
import MessageSelector.Term

/-!
# Evaluation of terms

A term has the three-valued meaning of the selector it was compiled from. A tuple is an operator by
its first atom and the number and make of its other items; any other term is unknown to the
evaluator, and the error shows it.
-/

namespace MessageSelector

/-- Why a text is no program, or a program has no value. -/
inductive ProgramError where
  /-- The text is malformed at an offset. -/
  | malformed (offset : Nat) (problem : String)
  /-- The term, given by its text, is not one that can be evaluated. -/
  | unknownTerm (text : String)
deriving DecidableEq, Repr

def ProgramError.message : ProgramError → String
  | malformed offset problem =>
    "malformed program at offset " ++ toString offset ++ ": " ++ problem
  | unknownTerm text => "unknown term `" ++ text ++ "`"

namespace Comparison

/-- The comparison that a program names by its symbol. -/
def ofSymbol? : String → Option Comparison
  | "=" => some equal
  | "<>" => some notEqual
  | "<" => some less
  | "<=" => some lessOrEqual
  | ">" => some greater
  | ">=" => some greaterOrEqual
  | _ => none

end Comparison

namespace Arithmetic

/-- The arithmetic operation that a program names by its symbol. -/
def ofSymbol? : String → Option Arithmetic
  | "+" => some add
  | "-" => some subtract
  | "*" => some multiply
  | "/" => some divide
  | _ => none

end Arithmetic

namespace Term

inductive Unary where
  | before (op : PrefixOperator)
  | nullTest (negated : Bool)
deriving DecidableEq, Repr

/-- The operator that a tuple with one operand is tagged with. -/
def Unary.ofTag? : String → Option Unary
  | "not" => some (before .not)
  | "-" => some (before .minus)
  | "+" => some (before .plus)
  | "is_null" => some (nullTest false)
  | "not_null" => some (nullTest true)
  | _ => none

def Unary.apply (op : Unary) (v : Value) : Value :=
  match op with
  | before op => v.applyPrefix op
  | nullTest negated => v.nullTest negated

inductive Dyadic where
  | binary (op : BinaryOperator)
  | between (negated : Bool)
deriving DecidableEq, Repr

/-- The operator that a tuple with two operands is tagged with. -/
def Dyadic.ofTag? (tag : String) : Option Dyadic :=
  match tag with
  | "and" => some (binary .and)
  | "or" => some (binary .or)
  | "between" => some (between false)
  | "not_between" => some (between true)
  | "like" => some (binary (.like false))
  | "not_like" => some (binary (.like true))
  | "in" => some (binary (.isIn false))
  | "not_in" => some (binary (.isIn true))
  | _ =>
    match Comparison.ofSymbol? tag with
    | some op => some (binary (.compare op))
    | none => (Arithmetic.ofSymbol? tag).map fun op => binary (.arith op)

/-- The pattern of a pair of a pattern string and an escape: outer `none` for any other term, inner
`none` for an escape string that is not one character. -/
def pattern? : Term → Option (Option (List Like.Piece))
  | .tuple [.binary text, .atom "no_escape"] => some (Like.compile? text none)
  | .tuple [.binary text, .binary escape] => some (Like.compile? text (some escape))
  | _ => none

def like (subject : Value) (pattern : Option (List Like.Piece)) : Value :=
  match pattern, subject with
  | some pieces, .string s => .bool (Like.matches? pieces s)
  | _, _ => .unknown

def string? : Term → Option String
  | .binary s => some s
  | _ => none

/-- The strings of terms that are all binary strings. -/
def strings? : List Term → Option (List String)
  | [] => some []
  | t :: rest => (string? t).bind fun s => (strings? rest).map (s :: ·)

/-- The strings of a list of binary strings, which the error shows if it is none. -/
def strings (items : List Term) : Except ProgramError (List String) :=
  match strings? items with
  | some texts => .ok texts
  | none => .error (.unknownTerm (Term.list items).print)

/-- The value of an atom: one of the truth values. -/
def atomValue (name : String) : Except ProgramError Value :=
  match name with
  | "true" => .ok (.bool true)
  | "false" => .ok (.bool false)
  | _ => .error (.unknownTerm (Term.atom name).print)

def value (source : PropertySource) : Term → Except ProgramError Value
  | .atom name => atomValue name
  | .int n => .ok (.number (.int n))
  | .float x => .ok (.number (.float x))
  | .binary s => .ok (.string s)
  | .list items => (strings items).map .list
  | .tuple [.atom tag, operand] =>
    match tag, operand with
    | "ident", .binary name => .ok (source.value name)
    | _, _ =>
      match Unary.ofTag? tag with
      | some op => (value source operand).map op.apply
      | none => .error (.unknownTerm (Term.tuple [.atom tag, operand]).print)
  | .tuple [.atom tag, left, right] =>
    let unknown := ProgramError.unknownTerm (Term.tuple [.atom tag, left, right]).print
    match Dyadic.ofTag? tag with
    | none => .error unknown
    | some (.binary .and) => do
      let l ← value source left
      if l.toBool? = some false then return l
      let r ← value source right
      return l.and r
    | some (.binary .or) => do
      let l ← value source left
      if l.toBool? = some true then return l
      let r ← value source right
      return l.or r
    | some (.binary (.compare c)) => do
      let l ← value source left
      let r ← value source right
      return l.compare c r
    | some (.binary (.arith a)) => do
      let l ← value source left
      let r ← value source right
      return l.arith a r
    | some (.binary (.like negated)) =>
      match right with
      | .tuple _ => do
        let l ← value source left
        match pattern? right with
        | some pattern => return (like l pattern).negateIf negated
        | none => .error unknown
      | _ => .error unknown
    | some (.binary (.isIn negated)) =>
      match right with
      | .list items => do
        let l ← value source left
        let texts ← strings items
        return (l.isIn texts).negateIf negated
      | _ => .error unknown
    | some (.between negated) =>
      match right with
      | .tuple [.atom "range", low, high] => do
        let v ← value source left
        let low ← value source low
        let high ← value source high
        return (v.between low high).negateIf negated
      | _ => .error unknown
  | .tuple items => .error (.unknownTerm (Term.tuple items).print)

end Term

end MessageSelector
