import MessageSelector.Proofs.Limit

/-!
# The limit and the derivation

How deep a derivation nests decides nearly alone whether its tokens are parsed
(`parse_eq_ok_iff_height`). The rules that recognition calls are those of the derivation, except
that an operand is tried as a number before it is tried as an identifier, and that call is one rule
further down. So an operand as deep as the limit may be a word or a string, but no identifier
(`IdentBelow`), although the derivation of an identifier nests no deeper.
-/

namespace MessageSelector

open MessageSelector.Derivation (Derives)

/-- Alternatives of tokens are left by a rule only where they start with an identifier. -/
theorem Rule.misses_of_tokens (r : Rule) : ∀ choice ∈ r.alternatives.zipIdx,
    choice.1.symbols.all (fun x => x.rule? = none) →
      (r.misses choice.2 = 1 ↔
        r = .simple ∧ choice.1.symbols.head? = some (.token .ident)) := by
  cases r <;> decide

namespace Derivation

/-- An operand that starts with an identifier and holds no rule, that is, one which is alone or in a
null test, stands below the given number of rules. -/
inductive IdentBelow : Nat → Derivation → Prop
  | here {index : Nat} {t : Token} {more rest : Derivation} : t.kind = .ident → more.height = 0 →
    IdentBelow 0 (.rule .simple index (.token t more) rest)
  | inside {depth index : Nat} {r : Rule} {body rest : Derivation} : IdentBelow depth body →
    IdentBelow (depth + 1) (.rule r index body rest)
  | behindToken {depth : Nat} {t : Token} {rest : Derivation} : IdentBelow depth rest →
    IdentBelow depth (.token t rest)
  | behindRule {depth index : Nat} {r : Rule} {body rest : Derivation} : IdentBelow depth rest →
    IdentBelow depth (.rule r index body rest)

@[simp]
theorem not_identBelow_done (depth : Nat) : ¬ IdentBelow depth .done :=
  nofun

@[simp]
theorem IdentBelow.token_iff {depth : Nat} {t : Token} {rest : Derivation} :
    IdentBelow depth (.token t rest) ↔ IdentBelow depth rest := by
  constructor
  · intro h
    cases h with
    | behindToken h => exact h
  · exact .behindToken

@[simp]
theorem IdentBelow.succ_rule_iff {depth index : Nat} {r : Rule} {body rest : Derivation} :
    IdentBelow (depth + 1) (.rule r index body rest) ↔
      IdentBelow depth body ∨ IdentBelow (depth + 1) rest := by
  constructor
  · intro h
    cases h with
    | inside h => exact .inl h
    | behindRule h => exact .inr h
  · rintro (h | h)
    · exact .inside h
    · exact .behindRule h

/-- A derivation nests no rules if its symbols are tokens. -/
theorem Derives.height_eq_zero_iff {symbols : List Symbol} {d : Derivation}
    (h : Derives symbols d) : d.height = 0 ↔ symbols.all fun x => x.rule? = none := by
  induction h with
  | done => exact iff_of_true rfl rfl
  | token _ _ ih => simpa [Symbol.rule?, height] using ih
  | rule => simp [Symbol.rule?, height]

/-- Without rules there are no calls. -/
theorem calls_eq_zero_iff (d : Derivation) : d.calls = 0 ↔ d.height = 0 := by
  induction d with
  | done => exact Iff.rfl
  | token _ _ ih => exact ih
  | rule r index body rest _ _ =>
    simp only [calls, height]
    omega

@[simp]
theorem IdentBelow.zero_rule_iff {index : Nat} {r : Rule} {body rest : Derivation} :
    IdentBelow 0 (.rule r index body rest) ↔
      (body.height = 0 ∧ r = .simple ∧ ∃ t more, body = .token t more ∧ t.kind = .ident) ∨
        IdentBelow 0 rest := by
  constructor
  · intro h
    cases h with
    | here hk hflat => exact .inl ⟨hflat, rfl, _, _, rfl, hk⟩
    | behindRule h => exact .inr h
  · rintro (⟨hflat, rfl, t, more, rfl, hk⟩ | h)
    · exact .here hk hflat
    · exact .behindRule h

/-- A rule is called in vain before an alternative of tokens exactly if it starts with an
identifier. -/
theorem Derives.misses_eq_one_iff {r : Rule} {index : Nat} {a : Alternative} {body : Derivation}
    (ha : r.alternatives[index]? = some a) (hbody : Derives a.symbols body)
    (hflat : body.height = 0) :
    r.misses index = 1 ↔ r = .simple ∧ ∃ t more, body = .token t more ∧ t.kind = .ident := by
  have htokens := hbody.height_eq_zero_iff.1 hflat
  have hmem : (a, index) ∈ r.alternatives.zipIdx := List.mk_mem_zipIdx_iff_getElem?.2 ha
  rw [Rule.misses_of_tokens r (a, index) hmem htokens]
  apply and_congr_right
  intro _
  constructor
  · intro hhead
    obtain ⟨symbols, hsymbols⟩ := List.head?_eq_some_iff.1 hhead
    rw [hsymbols] at hbody
    cases hbody with
    | token hk _ => exact ⟨_, _, rfl, hk⟩
  · rintro ⟨t, more, rfl, hk⟩
    generalize a.symbols = symbols at hbody
    cases hbody with
    | token hk' _ => rw [List.head?_cons, ← hk', hk]

/-- The calls that find a derivation nest as its rules do, but one deeper where an identifier stands
at the bottom. -/
theorem Derives.calls_le_iff {symbols : List Symbol} {d : Derivation} (h : Derives symbols d)
    (n : Nat) : d.calls ≤ n + 1 ↔ d.height ≤ n + 1 ∧ ¬ IdentBelow n d := by
  induction h generalizing n with
  | done => exact iff_of_true (Nat.zero_le _) ⟨Nat.zero_le _, not_identBelow_done n⟩
  | token _ _ ih =>
    rw [calls, height, IdentBelow.token_iff]
    exact ih n
  | @rule r index a symbols body rest ha hbody _ ihbody ihrest =>
    have hmisses := r.misses_le index
    have hrest := ihrest n
    simp only [calls, height]
    cases n with
    | zero =>
      -- The rule is the last one that may nest, so its alternative is made of tokens.
      have hcalls := body.calls_eq_zero_iff
      rw [IdentBelow.zero_rule_iff]
      by_cases hflat : body.height = 0
      · have hone := hbody.misses_eq_one_iff ha hflat
        grind
      · omega
    | succ n =>
      have hbody := ihbody n
      rw [IdentBelow.succ_rule_iff]
      grind

end Derivation

namespace Parser

variable {tokens : List Token} {d : Derivation}

/-- Where no rule nests too deeply and no identifier stands at the bottom, the tree is found. -/
theorem parse_of_height (hd : d.IsSentence tokens) {tree : Node} (htree : d.tree? = some tree)
    (hheight : d.height ≤ maxRuleDepth + 1) (hident : ¬ d.IdentBelow maxRuleDepth) :
    (Parser.ofList tokens).parse = .ok tree := by
  rw [parse_eq_ok_iff hd htree, hd.derives.calls_le_iff]
  exact ⟨hheight, hident⟩

/-- Where some rule nests too deeply or an identifier stands at the bottom, the limit is met. -/
theorem parse_tooDeep (hd : d.IsSentence tokens)
    (hdeep : maxRuleDepth + 1 < d.height ∨ d.IdentBelow maxRuleDepth) :
    ∃ position offset,
      (Parser.ofList tokens).parse = .error (.parse (.tooDeep position offset)) := by
  obtain ⟨tree, -, htree, -⟩ := hd.tree_covers
  rcases parse_or_tooDeep hd htree with hok | htooDeep
  · rw [parse_eq_ok_iff hd htree, hd.derives.calls_le_iff] at hok
    obtain ⟨hheight, hident⟩ := hok
    rcases hdeep with hlt | h
    · omega
    · exact absurd h hident
  · exact htooDeep

/-- **The limit of nesting, on the derivation.** Tokens that have a derivation are parsed to its
tree exactly if at most as many rules nest below the root rule as the limit says, and no operand
that stands below as many is an identifier alone or in a null test. Otherwise they are rejected as
nested too deeply. -/
theorem parse_eq_ok_iff_height (hd : d.IsSentence tokens) :
    ∃ tree, d.tree? = some tree ∧
      ((Parser.ofList tokens).parse = .ok tree ↔
        d.height ≤ maxRuleDepth + 1 ∧ ¬ d.IdentBelow maxRuleDepth) ∧
      ((∃ position offset,
          (Parser.ofList tokens).parse = .error (.parse (.tooDeep position offset))) ↔
        maxRuleDepth + 1 < d.height ∨ d.IdentBelow maxRuleDepth) := by
  obtain ⟨tree, -, htree, -⟩ := hd.tree_covers
  refine ⟨tree, htree, ?_⟩
  by_cases hdeep : maxRuleDepth + 1 < d.height ∨ d.IdentBelow maxRuleDepth
  · obtain ⟨position, offset, hparse⟩ := parse_tooDeep hd hdeep
    refine ⟨iff_of_false ?_ ?_, iff_of_true ⟨position, offset, hparse⟩ hdeep⟩
    · intro hok
      cases hparse.symm.trans hok
    · rintro ⟨hheight, hident⟩
      rcases hdeep with hlt | h
      · omega
      · exact hident h
  · obtain ⟨hheight, hident⟩ := not_or.1 hdeep
    rw [Nat.not_lt] at hheight
    have hparse := parse_of_height hd htree hheight hident
    refine ⟨iff_of_true hparse ⟨hheight, hident⟩, iff_of_false ?_ hdeep⟩
    rintro ⟨position, offset, htooDeep⟩
    cases hparse.symm.trans htooDeep

end Parser

/-! ## At the limit -/

namespace Derivation

/-- A simple expression as an operand of `AND`. -/
def operand (index : Nat) (body rest : Derivation) : Derivation :=
  .rule .notExpr 1 (.rule .cmpExpr 3 (.rule .arith 0 (.rule .plusExpr 1 (.rule .multExpr 1
    (.rule .signExpr 1 (.rule .simple index body .done) .done) .done) .done) .done) .done) rest

/-- The conjunction of identifiers, as many as given, and a last operand of one token. -/
def conjunction (index : Nat) (last : Token) : Nat → Derivation
  | 0 => .rule .andExpr 1 (operand index (.token last .done) .done) .done
  | n + 1 => .rule .andExpr 0 (operand 11 (.token ⟨.ident, "a", 0⟩ .done)
      (.token ⟨.and, "AND", 0⟩ (conjunction index last n))) .done

/-- The conjunction of three identifiers and a last operand, in as many brackets as given. -/
def bracketed (index : Nat) (last : Token) : Nat → Derivation → Derivation
  | 0, rest => .rule .expr 0 (.rule .orExpr 1 (conjunction index last 3) .done) rest
  | n + 1, rest => .rule .expr 0 (.rule .orExpr 1 (.rule .andExpr 1
      (operand 0 (.token ⟨.openParen, "(", 0⟩
        (bracketed index last n (.token ⟨.closeParen, ")", 0⟩ .done))) .done) .done) .done) rest

/-- The tokens of that conjunction in brackets. -/
def bracketedTokens (last : Token) (n : Nat) : List Token :=
  List.replicate n ⟨.openParen, "(", 0⟩ ++
    [⟨.ident, "a", 0⟩, ⟨.and, "AND", 0⟩, ⟨.ident, "a", 0⟩, ⟨.and, "AND", 0⟩, ⟨.ident, "a", 0⟩,
      ⟨.and, "AND", 0⟩, last] ++
    List.replicate n ⟨.closeParen, ")", 0⟩

section

variable {index : Nat} {last : Token}

theorem Derives.operand (index : Nat) {a : Alternative} {body rest : Derivation}
    {symbols : List Symbol}
    (ha : Rule.simple.alternatives[index]? = some a) (hbody : Derives a.symbols body)
    (hrest : Derives symbols rest) :
    Derives (.rule .notExpr :: symbols) (operand index body rest) := by
  have hsimple := Derives.rule ha hbody .done
  have hsign : Derives [.rule .signExpr] (.rule .signExpr 1 _ .done) := .rule rfl hsimple .done
  have hmult : Derives [.rule .multExpr] (.rule .multExpr 1 _ .done) := .rule rfl hsign .done
  have hplus : Derives [.rule .plusExpr] (.rule .plusExpr 1 _ .done) := .rule rfl hmult .done
  have harith : Derives [.rule .arith] (.rule .arith 0 _ .done) := .rule rfl hplus .done
  have hcmp : Derives [.rule .cmpExpr] (.rule .cmpExpr 3 _ .done) := .rule rfl harith .done
  exact .rule rfl hcmp hrest

variable (hlast : Rule.simple.alternatives[index]? = some ⟨.collapse, [.token last.kind]⟩)

include hlast in
theorem Derives.conjunction (n : Nat) :
    Derives [.rule .andExpr] (conjunction index last n) := by
  induction n with
  | zero => exact .rule rfl (.operand index hlast (.token rfl .done) .done) .done
  | succ n ih =>
    have hident : Derives [.token .ident] (.token ⟨.ident, "a", 0⟩ .done) := .token rfl .done
    have hrest : Derives [.token .and, .rule .andExpr]
        (.token ⟨.and, "AND", 0⟩ (Derivation.conjunction index last n)) := .token rfl ih
    exact .rule rfl (.operand 11 rfl hident hrest) .done

include hlast in
theorem Derives.bracketed (n : Nat) {rest : Derivation} {symbols : List Symbol}
    (hrest : Derives symbols rest) :
    Derives (.rule .expr :: symbols) (bracketed index last n rest) := by
  induction n generalizing rest symbols with
  | zero =>
    have hor : Derives [.rule .orExpr] (.rule .orExpr 1 _ .done) :=
      .rule rfl (.conjunction hlast 3) .done
    exact .rule rfl hor hrest
  | succ n ih =>
    have hclose : Derives [.token .closeParen] (.token ⟨.closeParen, ")", 0⟩ .done) :=
      .token rfl .done
    have hinterior := Derives.token (t := ⟨.openParen, "(", 0⟩) rfl (ih hclose)
    have hoperand := Derives.operand 0 rfl hinterior .done
    have hand : Derives [.rule .andExpr] (.rule .andExpr 1 _ .done) := .rule rfl hoperand .done
    have hor : Derives [.rule .orExpr] (.rule .orExpr 1 _ .done) := .rule rfl hand .done
    exact .rule rfl hor hrest

theorem height_bracketed (n : Nat) (rest : Derivation) :
    (bracketed index last n rest).height = max (10 * n + 13) rest.height := by
  induction n generalizing rest with
  | zero => rfl
  | succ n ih =>
    simp only [bracketed, operand, height, ih]
    omega

/-- At the bottom of the brackets and of the conjunction stands its last operand. -/
theorem identBelow_bracketed (n : Nat) (rest : Derivation) :
    IdentBelow (10 * n + 12) (bracketed index last n rest) ↔
      last.kind = .ident ∨ IdentBelow (10 * n + 12) rest := by
  induction n generalizing rest with
  | zero => simp [bracketed, conjunction, operand, height]
  | succ n ih =>
    have hdepth : 10 * (n + 1) + 12 = 10 * n + 12 + 10 := by omega
    simp [hdepth, bracketed, operand, ih]

theorem yield_bracketed (n : Nat) (rest : Derivation) :
    (bracketed index last n rest).yield = bracketedTokens last n ++ rest.yield := by
  unfold bracketedTokens
  induction n generalizing rest with
  | zero => simp [bracketed, conjunction, operand, yield]
  | succ n ih =>
    have hclose : List.replicate (n + 1) (⟨.closeParen, ")", 0⟩ : Token) =
        List.replicate n ⟨.closeParen, ")", 0⟩ ++ [⟨.closeParen, ")", 0⟩] := List.replicate_succ'
    rw [hclose, List.replicate_succ]
    simp [bracketed, operand, yield, ih]

include hlast in
theorem isSentence_bracketed (n : Nat) :
    (bracketed index last n .done).IsSentence (bracketedTokens last n) := by
  refine ⟨.bracketed hlast n .done, ?_⟩
  rw [yield_bracketed, yield, List.append_nil]

end

end Derivation

namespace Parser

open MessageSelector.Derivation (bracketed bracketedTokens)

/-- A word as deep as the limit is parsed. -/
theorem parse_eq_ok_iff_height_word :
    let d := bracketed 1 ⟨.trueWord, "TRUE", 0⟩ 50 .done
    d.IsSentence (bracketedTokens ⟨.trueWord, "TRUE", 0⟩ 50) ∧ d.height = maxRuleDepth + 1 ∧
      ∃ tree, d.tree? = some tree ∧
        (Parser.ofList (bracketedTokens ⟨.trueWord, "TRUE", 0⟩ 50)).parse = .ok tree := by
  intro d
  have hd : d.IsSentence (bracketedTokens ⟨.trueWord, "TRUE", 0⟩ 50) :=
    Derivation.isSentence_bracketed rfl 50
  have hheight : d.height = maxRuleDepth + 1 := Derivation.height_bracketed 50 .done
  have hident : ¬ d.IdentBelow maxRuleDepth := by
    intro h
    have hiff := (Derivation.identBelow_bracketed 50 .done).1 h
    simp at hiff
  obtain ⟨tree, htree, hparse, -⟩ := parse_eq_ok_iff_height hd
  exact ⟨hd, hheight, tree, htree, hparse.2 ⟨Nat.le_of_eq hheight, hident⟩⟩

/-- An identifier as deep as the limit is rejected as nested too deeply, although no rule of its
derivation is below the limit. -/
theorem parse_ident_at_limit :
    let d := bracketed 11 ⟨.ident, "a", 0⟩ 50 .done
    d.IsSentence (bracketedTokens ⟨.ident, "a", 0⟩ 50) ∧ d.height = maxRuleDepth + 1 ∧
      ∃ position offset, (Parser.ofList (bracketedTokens ⟨.ident, "a", 0⟩ 50)).parse =
        .error (.parse (.tooDeep position offset)) := by
  intro d
  have hd : d.IsSentence (bracketedTokens ⟨.ident, "a", 0⟩ 50) :=
    Derivation.isSentence_bracketed rfl 50
  have hheight : d.height = maxRuleDepth + 1 := Derivation.height_bracketed 50 .done
  have hident : d.IdentBelow maxRuleDepth := (Derivation.identBelow_bracketed 50 .done).2 (.inl rfl)
  exact ⟨hd, hheight, parse_tooDeep hd (.inr hident)⟩

end Parser

end MessageSelector
