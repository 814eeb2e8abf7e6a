import MessageSelector.Proofs.Reparsing

/-!
# The limit of canonical text

In canonical text every operator stands in brackets, and a level of brackets takes ten rules. A
chain of operators that is written without brackets takes one rule for each of its links, so a text
can be within the limit of nesting and its canonical text beyond it. `parse_print_limit` says which
canonical texts are parsed again, and `parse_bracketed` shows that conjunctions without brackets
(`conjunctionText`) go far beyond what their canonical texts (`bracketedText`) reach.
-/

namespace MessageSelector

open Token (Follows)

/-- Whether the canonical text of a tree is parsed is decided by the nesting of its brackets. Nine
rules lie between the root and the outermost bracket. -/
theorem Node.Formed.parse_print_nesting {tree : Node} (h : tree.Formed Token.Scanned) :
    if tree.nesting + 9 ≤ maxRuleDepth then ∃ tree', parse tree.print = .ok tree'
    else ∃ position offset, parse tree.print = .error (.parse (.tooDeep position offset)) := by
  obtain ⟨-, tokens, d, tree', htokens, hd, htree', -, hcalls⟩ := h.print_derivedIn
  have hparse : parse tree.print = (Parser.ofList tokens).parse := by rw [parse, htokens]
  rw [hparse]
  split
  · next hle => exact ⟨tree', (Parser.parse_eq_ok_iff hd htree').2 (by omega)⟩
  · next hgt => exact (Parser.parse_tooDeep_iff hd htree').2 (by omega)

/-! ## Conjunctions without brackets -/

/-- Operands with operators between them, grouped to the right. -/
def Node.chain (x : Token) : List (Token × Token) → Node
  | [] => .leaf 0 x
  | (op, y) :: links => .binary 0 op (.leaf 0 x) (chain y links)

/-- The tokens of a chain without brackets. -/
def chainTokens (x : Token) : List (Token × Token) → List Token
  | [] => [x]
  | (op, y) :: links => x :: op :: chainTokens y links

/-- The text `a AND a AND … AND a` with a number of links. -/
def conjunctionText (links : Nat) : String :=
  String.ofList ('a' :: (List.replicate links " AND a".toList).flatten)

/-- The text `(a AND (a AND … (a AND a)…))` with a number of links. -/
def bracketedText : (links : Nat) → String
  | 0 => "a"
  | links + 1 => "(a AND " ++ bracketedText links ++ ")"

section Conjunction

/-- The operand of the conjunctions. -/
def operandWord : Token.Kind × String :=
  (.ident, "a")

variable {x : Token} {links : List (Token × Token)}

/-- Each link of a conjunction is called one rule further down. -/
theorem SpellsIn.conjunction (hx : x.word = operandWord)
    (hlinks : ∀ link ∈ links, link.1.kind = .and ∧ link.2.word = operandWord) :
    SpellsIn (links.length + 9) [.rule .andExpr] (chainTokens x links) [.chain x links] := by
  have hident {y : Token} (hy : y.word = operandWord) :
      SpellsIn 2 [.rule .simple] [y] [.leaf 0 y] := by
    have hkind : y.kind = .ident := congrArg Prod.fst hy
    have hliteral := literal (t := y) (by rw [hkind]; rfl)
    rwa [hkind] at hliteral
  have hand : ⟨.binary, [.rule .notExpr, .token .and, .rule .andExpr]⟩ ∈
      Rule.andExpr.alternatives := List.mem_cons_self
  induction links generalizing x with
  | nil => exact (hident hx).climb (by decide) .andExpr (by decide)
  | cons link links ih =>
    obtain ⟨⟨hop, hy⟩, hrest⟩ := List.forall_mem_cons.1 hlinks
    have hleft := (hident hx).climb (by decide) .notExpr (by decide)
    have hlink := SpellsIn.link hand hleft (token hop) (ih hy hrest)
    have hcalls : max (2 + (Rule.notExpr.rank - Rule.simple.rank))
        (max 0 (links.length + 9)) + 1 = links.length + 1 + 9 := by
      have hrank : Rule.notExpr.rank - Rule.simple.rank = 6 := rfl
      omega
    rwa [hcalls] at hlink

namespace Node

/-- In its canonical text each link of a conjunction stands in a bracket of its own. -/
theorem nesting_chain (hx : x.word = operandWord)
    (hlinks : ∀ link ∈ links, link.1.kind = .and ∧ link.2.word = operandWord) :
    (chain x links).nesting = 11 * links.length + 1 := by
  induction links generalizing x with
  | nil =>
    have hkind : x.kind = .ident := congrArg Prod.fst hx
    rw [chain, nesting, hkind]
    rfl
  | cons link links ih =>
    obtain ⟨⟨hop, hy⟩, hrest⟩ := List.forall_mem_cons.1 hlinks
    have hkind : x.kind = .ident := congrArg Prod.fst hx
    have hbinary : link.1.kind.binary? = some .and := by rw [hop]; rfl
    simp only [chain, nesting, ih hy hrest, hkind, hbinary, Token.Kind.tries, BinaryOperator.links,
      Option.map_some, Option.getD_some, List.length_cons]
    omega

theorem printLeaf_of_word (hx : x.word = operandWord) : printLeaf x = "a" := by
  have hkind : x.kind = .ident := congrArg Prod.fst hx
  rw [printLeaf, hkind]
  exact congrArg Prod.snd hx

/-- A conjunction is printed with one bracket for each of its links. -/
theorem print_chain (hx : x.word = operandWord)
    (hlinks : ∀ link ∈ links, link.1.kind = .and ∧ link.2.word = operandWord) :
    (chain x links).print = bracketedText links.length := by
  induction links generalizing x with
  | nil => exact printLeaf_of_word hx
  | cons link links ih =>
    obtain ⟨⟨hop, hy⟩, hrest⟩ := List.forall_mem_cons.1 hlinks
    have hleft : (leaf 0 x).print = "a" := printLeaf_of_word hx
    have hspelling : link.1.kind.spelling = "AND" := by rw [hop]; rfl
    rw [chain, print, hleft, hspelling, ih hy hrest]
    rfl

theorem nesting_numberFrom (n : Node) (next : Nat) :
    (n.numberFrom next).1.nesting = n.nesting := by
  induction n generalizing next with
  | leaf | list | pattern | escaped => rfl
  | binary _ _ _ _ ih₁ ih₂ => simp only [numberFrom, nesting, ih₁, ih₂]
  | ternary _ _ _ _ _ ih₁ ih₂ ih₃ => simp only [numberFrom, nesting, ih₁, ih₂, ih₃]
  | prefixOp _ _ _ ih | postfixOp _ _ _ ih => simp only [numberFrom, nesting, ih]

theorem print_numberFrom (n : Node) (next : Nat) : (n.numberFrom next).1.print = n.print := by
  induction n generalizing next with
  | leaf | list => rfl
  | binary _ _ _ _ ih₁ ih₂ => simp only [numberFrom, print, ih₁, ih₂]
  | ternary _ _ _ _ _ ih₁ ih₂ ih₃ => simp only [numberFrom, print, ih₁, ih₂, ih₃]
  | prefixOp _ _ _ ih | postfixOp _ _ _ ih | pattern _ _ ih => simp only [numberFrom, print, ih]
  | escaped _ _ _ ih₁ ih₂ => simp only [numberFrom, print, ih₁, ih₂]

end Node

/-- A conjunction is scanned link by link. -/
theorem scans_conjunction (n : Nat) :
    Scans (conjunctionText n).toList
      (operandWord :: (List.replicate n [Token.Kind.and.word, operandWord]).flatten) := by
  have hscannable : (Node.leaf 0 ⟨.ident, "a", 0⟩).Scannable :=
    .leaf rfl ⟨⟨⟨['a'], 1, by decide +kernel, rfl⟩, by decide⟩,
      Scans.valued_of_isNumeric rfl _ _⟩
  rw [conjunctionText, String.toList_ofList]
  have hfollows (n : Nat) : Follows (List.replicate n " AND a".toList).flatten := by
    cases n with
    | zero => exact .done
    | succ n =>
      exact @Follows.operator .and (' ' :: 'a' :: (List.replicate n " AND a".toList).flatten) rfl
  refine hscannable.scans (hfollows n) ?_
  induction n with
  | zero => exact .done
  | succ n ih =>
    have hand : Token.Kind.and.isInfix = true := rfl
    exact Scans.operator hand (hscannable.opens (hfollows n)) (hscannable.scans (hfollows n) ih)

/-- Tokens with the words of a conjunction are its chain. -/
theorem chain_split {tokens : List Token} {n : Nat} (h : tokens.map Token.word =
      operandWord :: (List.replicate n [Token.Kind.and.word, operandWord]).flatten) :
    ∃ x links, tokens = chainTokens x links ∧ x.word = operandWord ∧
      (∀ link ∈ links, link.1.kind = .and ∧ link.2.word = operandWord) ∧ links.length = n := by
  induction n generalizing tokens with
  | zero =>
    obtain ⟨x, rest, rfl, hx, hnil⟩ := List.map_eq_cons_iff.1 h
    cases List.map_eq_nil_iff.1 hnil
    exact ⟨x, [], rfl, hx, List.forall_mem_nil _, rfl⟩
  | succ n ih =>
    obtain ⟨x, rest, rfl, hx, hrest⟩ := List.map_eq_cons_iff.1 h
    obtain ⟨op, rest, rfl, hop, hrest⟩ := List.map_eq_cons_iff.1 hrest
    obtain ⟨y, links, rfl, hy, hlinks, hlength⟩ := ih hrest
    refine ⟨x, (op, y) :: links, rfl, hx,
      List.forall_mem_cons.2 ⟨⟨Token.kind_of_word hop, hy⟩, hlinks⟩, ?_⟩
    rw [List.length_cons, hlength]

/-- A conjunction without brackets is parsed as long as its links are called within the limit. -/
theorem parse_conjunction {n : Nat} (hn : n ≤ 502) :
    ∃ tree, parse (conjunctionText n) = .ok tree ∧ tree.nesting = 11 * n + 1 ∧
      tree.print = bracketedText n := by
  obtain ⟨-, tokens, htokens, hwords⟩ := (scans_conjunction n).tokenize
  obtain ⟨x, links, rfl, hx, hlinks, rfl⟩ := chain_split hwords
  obtain ⟨d, hd, htree, hcalls⟩ :=
    ((SpellsIn.conjunction hx hlinks).climb (by decide) .expr (by decide)).isSentence
  have hle : d.calls ≤ maxRuleDepth + 1 := by
    have hrank : Rule.expr.rank - Rule.andExpr.rank = 2 := rfl
    rw [hcalls, maxRuleDepth]
    omega
  have hparse : parse (conjunctionText links.length) = .ok (Node.chain x links).number.1 := by
    rw [parse, htokens]
    exact (Parser.parse_eq_ok_iff hd htree).2 hle
  refine ⟨_, hparse, ?_, ?_⟩
  · rw [Node.number, Node.nesting_numberFrom, Node.nesting_chain hx hlinks]
  · rw [Node.number, Node.print_numberFrom, Node.print_chain hx hlinks]

/-- Without brackets a conjunction is within the limit with far more links than with them. -/
theorem parse_bracketed {n : Nat} (hlong : 46 ≤ n) (hshort : n ≤ 502) :
    ∃ tree position offset, parse (conjunctionText n) = .ok tree ∧ tree.print = bracketedText n ∧
      parse (bracketedText n) = .error (.parse (.tooDeep position offset)) := by
  obtain ⟨tree, hparse, hnesting, htext⟩ := parse_conjunction hshort
  have hprint := (parse_formed hparse).parse_print_nesting
  rw [if_neg (by rw [hnesting, maxRuleDepth]; omega), htext] at hprint
  obtain ⟨position, offset, hdeep⟩ := hprint
  exact ⟨tree, position, offset, hparse, htext, hdeep⟩

end Conjunction

/-! ## The canonical texts that are parsed -/

/-- **The limit of canonical text.** The canonical text of a tree that a text parses to is parsed
again if and only if its brackets nest within the limit, and is rejected as nested too deeply if and
only if they do not. -/
theorem parse_print_limit (text : String) (tree : Node) (h : parse text = .ok tree) :
    ((∃ tree', parse tree.print = .ok tree') ↔ tree.nesting + 9 ≤ maxRuleDepth) ∧
    ((∃ position offset, parse tree.print = .error (.parse (.tooDeep position offset))) ↔
      maxRuleDepth < tree.nesting + 9) := by
  have hprint := (parse_formed h).parse_print_nesting
  split at hprint
  · next hle =>
    obtain ⟨tree', hok⟩ := hprint
    refine ⟨iff_of_true ⟨tree', hok⟩ hle, iff_of_false ?_ (Nat.not_lt.2 hle)⟩
    rintro ⟨position, offset, hdeep⟩
    cases hok.symm.trans hdeep
  · next hgt =>
    obtain ⟨position, offset, hdeep⟩ := hprint
    refine ⟨iff_of_false ?_ hgt, iff_of_true ⟨position, offset, hdeep⟩ (Nat.not_le.1 hgt)⟩
    rintro ⟨tree', hok⟩
    cases hok.symm.trans hdeep

/-- A conjunction of 46 operands is the longest whose canonical text is parsed. -/
theorem parse_print_limit_conjunction :
    ∃ tree tree', parse (conjunctionText 45) = .ok tree ∧ tree.print = bracketedText 45 ∧
      tree.nesting + 9 ≤ maxRuleDepth ∧ parse tree.print = .ok tree' := by
  obtain ⟨tree, hparse, hnesting, htext⟩ := @parse_conjunction 45 (by decide)
  have hle : tree.nesting + 9 ≤ maxRuleDepth := by
    rw [hnesting]
    decide
  obtain ⟨tree', hparse'⟩ := (parse_print_limit _ _ hparse).1.2 hle
  exact ⟨tree, tree', hparse, htext, hle, hparse'⟩

/-- The canonical text of a conjunction of 47 operands is nested too deeply. -/
theorem parse_print_conjunction_long :
    ∃ tree position offset, parse (conjunctionText 46) = .ok tree ∧
      tree.print = bracketedText 46 ∧
      parse (bracketedText 46) = .error (.parse (.tooDeep position offset)) :=
  parse_bracketed (by decide) (by decide)

end MessageSelector
