/-!
# Blank characters

Tokens of a selector, and terms of a program, may be separated by any characters of the Unicode
property White_Space. The property is a short table of code point ranges, so the test is a table
look-up rather than the ASCII test of the core library.
-/

namespace MessageSelector.Text

/-- The first and last code point of every run of White_Space characters. -/
def blankRanges : List (Nat × Nat) :=
  [(0x09, 0x0d), (0x20, 0x20), (0x85, 0x85), (0xa0, 0xa0), (0x1680, 0x1680), (0x2000, 0x200a),
    (0x2028, 0x2029), (0x202f, 0x202f), (0x205f, 0x205f), (0x3000, 0x3000)]

/-- Whether a character has the property White_Space. -/
def isBlank (c : Char) : Bool :=
  blankRanges.any fun range => range.1 ≤ c.toNat && c.toNat ≤ range.2

def skipBlanks : List Char → List Char
  | [] => []
  | c :: rest => if isBlank c then skipBlanks rest else c :: rest

/-- Skipping blanks never lengthens a text, which readers use to show that they make progress. -/
theorem length_skipBlanks_le (cs : List Char) : (skipBlanks cs).length ≤ cs.length := by
  induction cs with
  | nil => simp [skipBlanks]
  | cons c rest ih =>
    unfold skipBlanks
    split
    · exact Nat.le_succ_of_le ih
    · exact Nat.le_refl _

end MessageSelector.Text
