/-!
# Manual

The chapters of the manual that the command line prints, and the names they go by.
-/

namespace MessageSelector.Manual

inductive Chapter where
  | grammar
  | operators
  | literals
  | nulls
  | types
  | programs
deriving DecidableEq, Repr

/-- The small letter of a letter of a chapter's name. Besides the ASCII capitals only the Kelvin
sign has such a small letter. -/
def lower (c : Char) : Char :=
  if c = '\u212a' then 'k' else c.toLower

/-- The chapter that a name stands for, in any case. -/
def Chapter.ofName? (name : String) : Option Chapter :=
  match name.map lower with
  | "syntax" => some grammar
  | "operators" | "ops" => some operators
  | "literals" | "literal" => some literals
  | "nulls" | "null" | "unknown" => some nulls
  | "types" | "type" => some types
  | "compile" | "terms" | "programs" => some programs
  | _ => none

/-- The text of lines, each of them ended. -/
def ofLines (lines : List String) : String :=
  String.join (lines.map (· ++ "\n"))

def overview : String :=
  ofLines [
    "SELECTOR DOCUMENTATION",
    "",
    "A selector is a boolean condition over the properties of a message, written",
    "in the SQL-92 conditional expression subset used by message brokers:",
    "",
    "  JMSType = 'car' AND color = 'blue' AND weight > 2500",
    "",
    "DOCUMENTATION CATEGORIES",
    "",
    "  syntax            Grammar, precedence and associativity",
    "  operators         Comparison, arithmetic, LIKE, IN, BETWEEN, IS NULL",
    "  literals          Strings, integers, floats, hex and booleans",
    "  nulls             Missing properties and three-valued logic",
    "  types             Static type checking and type hints",
    "  compile           The term program produced by 'selector compile'",
    "",
    "Run 'selector doc <category>' for detailed documentation."]

def Chapter.text : Chapter → String
  | grammar => ofLines [
    "SYNTAX",
    "",
    "Keywords are case-insensitive. Identifiers start with a letter, '_' or '$'",
    "and may contain letters, digits, '_', '$' and '.'.",
    "",
    "PRECEDENCE (loosest first)",
    "",
    "  OR",
    "  AND",
    "  NOT",
    "  = <> < <= > >=  BETWEEN  LIKE  IN  IS NULL",
    "  + -",
    "  * /",
    "  unary + -",
    "",
    "Binary operators group to the right: 'a - b - c' is 'a - (b - c)'.",
    "Use parentheses to group explicitly.",
    "",
    "EXAMPLES",
    "",
    "  color = 'blue' OR color = 'green'",
    "  NOT (weight BETWEEN 100 AND 200)",
    "  (price * quantity) > 1000"]
  | operators => ofLines [
    "OPERATORS",
    "",
    "COMPARISON",
    "  = <>              Any two values of the same type",
    "  < <= > >=         Numbers only",
    "  An integer compared with a float is widened to float: 1 = 1.0 is TRUE.",
    "",
    "ARITHMETIC",
    "  + - * /           Numbers only. Integer overflow and integer division by",
    "                    zero give UNKNOWN.",
    "",
    "LIKE",
    "  name LIKE 'ab%'           % matches any sequence, _ any one character",
    "  name LIKE '10!%' ESCAPE '!'   a character after the escape is literal",
    "  name NOT LIKE 'x_'",
    "",
    "IN",
    "  region IN ('us', 'eu')    the left side must be an identifier",
    "  region NOT IN ('apac')",
    "",
    "BETWEEN",
    "  x BETWEEN a AND b         same as a <= x AND x <= b",
    "  x NOT BETWEEN a AND b",
    "",
    "IS NULL",
    "  name IS NULL              TRUE when the property is missing",
    "  name IS NOT NULL"]
  | literals => ofLines [
    "LITERALS",
    "",
    "  'text'            String; write '' for a quote inside: 'it''s'",
    "  42                Integer (64-bit)",
    "  3.5  1e10  2.5f   Float; a trailing f, F, d or D is ignored",
    "  0x1F              Hex integer",
    "  TRUE  FALSE       Booleans",
    "",
    "A numeric literal too large for its representation is a lexical error. A",
    "leading minus sign is an operator, not part of the literal, so the smallest",
    "integer is written -9223372036854775807 - 1."]
  | nulls => ofLines [
    "NULLS AND THREE-VALUED LOGIC",
    "",
    "A property missing from the message is UNKNOWN, and so is any comparison or",
    "arithmetic involving it.",
    "",
    "  AND    false wins, then unknown",
    "  OR     true wins, then unknown",
    "  NOT    NOT unknown is unknown",
    "",
    "A selector whose result is UNKNOWN does not match the message."]
  | types => ofLines [
    "TYPES",
    "",
    "Every subexpression has a static type: bool, string, arith or any. An",
    "identifier is 'any' unless a type hint says otherwise. A selector is",
    "rejected when its root is not bool or any:",
    "",
    "  'a' = 1           rejected, string compared with number",
    "  weight + 1        rejected, root is arith",
    "",
    "TYPE HINTS",
    "",
    "  selector check \"weight > 10\" --types '\x7b\"weight\": \"arith\"\x7d'",
    "",
    "Accepted names: bool, string, arith, any.",
    "",
    "Hints only affect checking. A property of another type at evaluation time",
    "keeps its value, so with weight hinted arith and weight = 'heavy',",
    "'weight > 10' is UNKNOWN and 'weight IS NULL' is false."]
  | programs => ofLines [
    "TERM PROGRAMS",
    "",
    "'selector compile' prints the selector as a nested term:",
    "",
    "  a = 1 AND b IN ('x')",
    "  \x7b'and', \x7b'=', \x7b'ident', <<\"a\">>\x7d, 1\x7d, " ++
      "\x7b'in', \x7b'ident', <<\"b\">>\x7d, [<<\"x\">>]\x7d\x7d",
    "",
    "Strings are binaries, identifiers are \x7b'ident', Name\x7d pairs and operators are",
    "quoted atoms. 'selector run <PROGRAM> --input JSON' evaluates a program with",
    "the same result as 'selector eval' on the original selector."]

end MessageSelector.Manual
