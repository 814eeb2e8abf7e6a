import MessageSelector.Proofs.Calls
import MessageSelector.Proofs.Formed

/-!
# Spelling out selectors

Derivations are put together symbol by symbol, together with the tokens they yield, the trees that
the actions build and the number of calls that nest while they are found (`SpellsIn`, and `Spells`
without the number). Expressions are built from simple ones: the alternatives that only pass on a
child lift a simple expression to whatever rule an operator asks for, each one call further up
(`SpellsIn.climb`), and brackets bring any expression back to a simple one (`SpellsIn.interior`).
-/

namespace MessageSelector

open MessageSelector.Derivation (Derives)
open Token.Kind (openParen closeParen)

/-- The tokens are derived from the symbols, and the actions build the trees. -/
def Spells (symbols : List Symbol) (tokens : List Token) (nodes : List Node) : Prop :=
  ∃ d, Derives symbols d ∧ d.yield = tokens ∧ d.nodes? = some nodes

/-- The tokens are derived from the symbols with the given number of calls that nest, and the
actions build the trees. -/
def SpellsIn (calls : Nat) (symbols : List Symbol) (tokens : List Token) (nodes : List Node) :
    Prop :=
  ∃ d, Derives symbols d ∧ d.yield = tokens ∧ d.nodes? = some nodes ∧ d.calls = calls

/-- The rule to which an expression without an operator of the given rule belongs. -/
def Rule.under : Rule → Rule
  | expr => orExpr
  | orExpr => andExpr
  | andExpr => notExpr
  | notExpr => cmpExpr
  | cmpExpr => arith
  | arith => plusExpr
  | plusExpr => multExpr
  | multExpr => signExpr
  | signExpr => simple
  | r => r

theorem Rule.collapse_under {r : Rule} (h : 2 ≤ r.rank) :
    r.under.rank + 1 = r.rank ∧ ⟨.collapse, [.rule r.under]⟩ ∈ r.alternatives := by
  revert h
  cases r <;> decide

/-- Rules of expressions are told apart by their ranks. -/
theorem Rule.eq_of_rank {r s : Rule} (h : r.rank = s.rank) (hs : 1 ≤ s.rank) : r = s := by
  revert h hs
  cases r <;> cases s <;> decide

/-- How much further down the right operand of an operator is called than the left one: the rest of
a chain is called by its first link. -/
def BinaryOperator.links : BinaryOperator → Nat
  | and | or | arith _ => 1
  | compare _ | like _ | isIn _ => 0

/-- The calls below that of a simple expression that is one token. What is neither a word nor a
string is tried as a number. -/
def Token.Kind.tries : Token.Kind → Nat
  | trueWord | falseWord | string => 0
  | _ => 1

namespace SpellsIn

variable {symbols : List Symbol} {tokens more : List Token} {nodes : List Node} {n : Node}
  {c c' : Nat}

theorem token {kind : Token.Kind} {t : Token} (h : t.kind = kind) :
    SpellsIn 0 [.token kind] [t] [.leaf 0 t] :=
  ⟨.token t .done, .token h .done, rfl, rfl, rfl⟩

/-- A rule is one more call than those of its alternative, or those made in vain before it. -/
theorem rule {r : Rule} (index : Nat) {a : Alternative} (ha : r.alternatives[index]? = some a)
    (hbody : SpellsIn c a.symbols tokens nodes) (hnode : a.action.build nodes = .ok n) :
    SpellsIn (max c (r.misses index) + 1) [.rule r] tokens [n] := by
  obtain ⟨d, hd, hyield, hnodes, rfl⟩ := hbody
  refine ⟨.rule r index d .done, .rule ha hd .done, ?_, ?_, ?_⟩
  · rw [Derivation.yield, hyield, Derivation.yield, List.append_nil]
  · exact Derivation.nodes?_rule.2 ⟨a, nodes, n, [], ha, hnodes, hnode, rfl, rfl⟩
  · rw [Derivation.calls, Derivation.calls, Nat.max_zero]

/-- Calls in vain do not count beside as many others. -/
theorem rule_of_mem {r : Rule} {a : Alternative} (ha : a ∈ r.alternatives)
    (hbody : SpellsIn c a.symbols tokens nodes) (hc : ∀ index, r.misses index ≤ c)
    (hnode : a.action.build nodes = .ok n) : SpellsIn (c + 1) [.rule r] tokens [n] := by
  obtain ⟨index, hindex⟩ := List.mem_iff_getElem?.1 ha
  have h := rule index hindex hbody hnode
  rwa [Nat.max_eq_left (hc index)] at h

theorem rule_of_pos {r : Rule} {a : Alternative} (ha : a ∈ r.alternatives)
    (hbody : SpellsIn c a.symbols tokens nodes) (hc : 1 ≤ c)
    (hnode : a.action.build nodes = .ok n) : SpellsIn (c + 1) [.rule r] tokens [n] :=
  rule_of_mem ha hbody (fun index => Nat.le_trans (r.misses_le index) hc) hnode

theorem rule_of_isBare {r : Rule} {a : Alternative} (ha : a ∈ r.alternatives)
    (hbody : SpellsIn c a.symbols tokens nodes) (hr : r.isBare)
    (hnode : a.action.build nodes = .ok n) : SpellsIn (c + 1) [.rule r] tokens [n] :=
  rule_of_mem ha hbody (fun index => by rw [r.misses_of_isBare hr]; exact Nat.zero_le c) hnode

theorem cons {x : Symbol} (h : SpellsIn c [x] tokens [n]) (hmore : SpellsIn c' symbols more nodes) :
    SpellsIn (max c c') (x :: symbols) (tokens ++ more) (n :: nodes) := by
  obtain ⟨d, hd, rfl, hnode, rfl⟩ := h
  obtain ⟨e, he, rfl, hnodes, rfl⟩ := hmore
  cases hd with
  | @token kind t _ rest hk hrest =>
    cases hrest
    cases hnode
    exact ⟨.token t e, .token hk he, rfl, by rw [Derivation.nodes?, hnodes]; rfl,
      (Nat.zero_max _).symm⟩
  | @rule r index a _ body rest ha hbody hrest =>
    cases hrest
    refine ⟨.rule r index body e, .rule ha hbody he, ?_, Derivation.nodes?_rule_append hnode hnodes,
      ?_⟩
    · simp [Derivation.yield]
    · simp only [Derivation.calls, Nat.max_zero]

theorem pos {r : Rule} (h : SpellsIn c [.rule r] tokens nodes) : 1 ≤ c := by
  obtain ⟨d, hd, -, -, rfl⟩ := h
  cases hd with
  | rule => exact Nat.le_trans (Nat.le_add_left 1 _) (Nat.le_max_left _ _)

/-- What belongs to a rule of expressions belongs to every rule above it. -/
theorem climb {s : Rule} (h : SpellsIn c [.rule s] tokens [n]) (hs : 1 ≤ s.rank) (r : Rule)
    (hrs : s.rank ≤ r.rank) : SpellsIn (c + (r.rank - s.rank)) [.rule r] tokens [n] := by
  induction hk : r.rank generalizing r with
  | zero => omega
  | succ k ih =>
    -- One rank at a time, by the alternative that only passes on its child.
    by_cases heq : r.rank = s.rank
    · rw [← hk, heq, Nat.sub_self]
      rwa [Rule.eq_of_rank heq hs]
    · obtain ⟨hrank, hmem⟩ := @Rule.collapse_under r (by omega)
      have hunder := ih r.under (by omega) (by omega)
      have h := rule_of_pos hmem hunder hunder.pos rfl
      rwa [show c + (k - s.rank) + 1 = c + (k + 1 - s.rank) by omega] at h

theorem expr (h : SpellsIn c [.rule .simple] tokens [n]) :
    SpellsIn (c + 9) [.rule .expr] tokens [n] :=
  h.climb (by decide) .expr (by decide)

theorem interior {start stop : Token} (hstart : start.kind = openParen)
    (hstop : stop.kind = closeParen) (h : SpellsIn c [.rule .expr] tokens [n]) :
    SpellsIn (c + 1) [.rule .simple] (start :: (tokens ++ [stop])) [n] := by
  have hsymbols := (token hstart).cons (h.cons (token hstop))
  rw [Nat.zero_max, Nat.max_zero] at hsymbols
  exact @rule_of_pos _ _ _ _ .simple ⟨.interior, _⟩ (by decide) hsymbols h.pos rfl

theorem literal {t : Token} (h : t.kind.isOperand) :
    SpellsIn (t.kind.tries + 1) [.rule .simple] [t] [.leaf 0 t] := by
  cases hkind : t.kind <;> rw [hkind] at h <;> first | contradiction | skip
  case trueWord => exact @rule _ _ _ _ .simple 1 ⟨.collapse, _⟩ rfl (token hkind) rfl
  case falseWord => exact @rule _ _ _ _ .simple 2 ⟨.collapse, _⟩ rfl (token hkind) rfl
  case string => exact @rule _ _ _ _ .simple 3 ⟨.collapse, _⟩ rfl (token hkind) rfl
  case ident => exact @rule _ _ _ _ .simple 11 ⟨.collapse, _⟩ rfl (token hkind) rfl
  case hex | float | int =>
    have hnumber : SpellsIn 1 [.rule .number] [t] [.leaf 0 t] :=
      @rule_of_isBare _ _ _ _ .number ⟨.collapse, _⟩ (by decide) (token hkind) rfl rfl
    exact @rule_of_pos _ _ _ _ .simple ⟨.collapse, _⟩ (by decide) hnumber (by decide) rfl

end SpellsIn

/-! ## Operators -/

namespace SpellsIn

variable {tokens more : List Token} {op : Token} {m n : Node} {c c' : Nat}

/-- Two operands of an operator that are matches of the rules that the alternative asks for. -/
theorem link {r s s' : Rule} {x : Symbol} {k : Nat}
    (halt : ⟨.binary, [.rule s, x, .rule s']⟩ ∈ r.alternatives)
    (hm : SpellsIn c [.rule s] tokens [m]) (hop : SpellsIn k [x] [op] [.leaf 0 op])
    (hn : SpellsIn c' [.rule s'] more [n]) :
    SpellsIn (max c (max k c') + 1) [.rule r] (tokens ++ op :: more) [.binary 0 op m n] := by
  have hpos := hm.pos
  exact rule_of_pos halt (hm.cons (hop.cons hn)) (by omega) rfl

/-- Two operands of an operator, lifted to the rules that the alternative asks for. -/
theorem binary (r s s' : Rule) {x : Symbol} {k links : Nat}
    (halt : ⟨.binary, [.rule s, x, .rule s']⟩ ∈ r.alternatives)
    (hrank : 1 ≤ s.rank ∧ s.rank + 1 = r.rank ∧ s'.rank + 1 = r.rank + links ∧ r.rank ≤ 10)
    (hop : SpellsIn k [x] [op] [.leaf 0 op]) (hk : k ≤ 1)
    (hm : SpellsIn c [.rule .simple] tokens [m]) (hn : SpellsIn c' [.rule .simple] more [n]) :
    SpellsIn (max c (c' + links) + 9) [.rule .expr] (tokens ++ op :: more) [.binary 0 op m n] := by
  obtain ⟨hs, hr, hs', hr'⟩ := hrank
  have hleft := hm.climb (by decide) s hs
  have hright := hn.climb (by decide) s' (show 1 ≤ s'.rank by omega)
  have hpos := hleft.pos
  have hexpr := (link halt hleft hop hright).climb (by omega) .expr hr'
  have hsimple : Rule.simple.rank = 1 := rfl
  have htop : Rule.expr.rank = 10 := rfl
  have hcalls : max (c + (s.rank - Rule.simple.rank))
      (max k (c' + (s'.rank - Rule.simple.rank))) + 1 + (Rule.expr.rank - r.rank) =
        max c (c' + links) + 9 := by
    omega
  rwa [hcalls] at hexpr

/-- An operator between expressions. -/
theorem operator {o : BinaryOperator} (ho : op.kind.binary? = some o) (htakes : o.takesExpressions)
    (hm : SpellsIn c [.rule .simple] tokens [m]) (hn : SpellsIn c' [.rule .simple] more [n]) :
    SpellsIn (max c (c' + o.links) + 9) [.rule .expr] (tokens ++ op :: more)
      [.binary 0 op m n] := by
  have hclass {r : Rule} {kind : Token.Kind} (hkind : op.kind = kind)
      (hmem : ⟨.collapse, [.token kind]⟩ ∈ r.alternatives) (hr : r.isBare) :
      SpellsIn 1 [.rule r] [op] [.leaf 0 op] := rule_of_isBare hmem (token hkind) hr rfl
  cases hkind : op.kind <;> rw [hkind] at ho <;> cases ho <;> first | contradiction | skip
  case or =>
    exact binary .orExpr .andExpr .orExpr (by decide) (by decide) (token hkind) (by decide) hm hn
  case and =>
    exact binary .andExpr .notExpr .andExpr (by decide) (by decide) (token hkind) (by decide) hm hn
  case plus | minus =>
    have hop : SpellsIn 1 [.rule .addOp] [op] [.leaf 0 op] := hclass hkind (by decide) rfl
    exact binary .plusExpr .multExpr .plusExpr (by decide) (by decide) hop (by decide) hm hn
  case times | divide =>
    have hop : SpellsIn 1 [.rule .mulOp] [op] [.leaf 0 op] := hclass hkind (by decide) rfl
    exact binary .multExpr .signExpr .multExpr (by decide) (by decide) hop (by decide) hm hn
  all_goals
    have hop : SpellsIn 1 [.rule .cmpOp] [op] [.leaf 0 op] := hclass hkind (by decide) rfl
    exact binary .cmpExpr .arith .arith (by decide) (by decide) hop (by decide) hm hn

theorem ternary {negated : Bool} {last : List Token} {conj : Token} {k : Node} {c'' : Nat}
    (hop : op.kind.ternaryNegated? = some negated) (hconj : conj.kind = .and)
    (hk : SpellsIn c'' [.rule .simple] last [k])
    (hm : SpellsIn c [.rule .simple] tokens [m]) (hn : SpellsIn c' [.rule .simple] more [n]) :
    SpellsIn (max c (max c' c'') + 9) [.rule .expr] (tokens ++ op :: (more ++ conj :: last))
      [.ternary 0 op m n k] := by
  have hlift {ts : List Token} {n : Node} {c : Nat} (h : SpellsIn c [.rule .simple] ts [n]) :
      SpellsIn (c + 4) [.rule .arith] ts [n] := h.climb (by decide) .arith (by decide)
  have hcalls : max (c + 4) (max 0 (max (c' + 4) (max 0 (c'' + 4)))) + 1 + 4 =
      max c (max c' c'') + 9 := by omega
  rw [← hcalls]
  cases hkind : op.kind <;> rw [hkind] at hop <;> first | contradiction | skip
  all_goals
    have hsymbols := (hlift hm).cons ((token hkind).cons
      ((hlift hn).cons ((token hconj).cons (hlift hk))))
    have hrule := @rule_of_pos _ _ _ _ .cmpExpr ⟨.ternary, _⟩ (by decide) hsymbols (by omega) rfl
    exact hrule.climb (by decide) .expr (by decide)

theorem prefixOp {o : PrefixOperator} (hop : op.kind.prefix? = some o)
    (hm : SpellsIn c [.rule .simple] tokens [m]) :
    SpellsIn (c + 9) [.rule .expr] (op :: tokens) [.prefixOp 0 op m] := by
  have hpos := hm.pos
  cases hkind : op.kind <;> rw [hkind] at hop <;> first | contradiction | skip
  case not =>
    have hsymbols := (token hkind).cons (hm.climb (by decide) .cmpExpr (by decide))
    rw [Nat.zero_max] at hsymbols
    have hrule := @rule_of_pos _ _ _ _ .notExpr ⟨.prefixOp, _⟩ (by decide) hsymbols (by omega) rfl
    exact hrule.climb (by decide) .expr (by decide)
  all_goals
    have hsign : SpellsIn 1 [.rule .addOp] [op] [.leaf 0 op] :=
      @rule_of_isBare _ _ _ _ .addOp ⟨.collapse, _⟩ (by decide) (token hkind) rfl rfl
    have hsymbols := hsign.cons hm
    rw [Nat.max_eq_right hpos] at hsymbols
    have hrule := @rule_of_pos _ _ _ _ .signExpr ⟨.prefixOp, _⟩ (by decide) hsymbols hpos rfl
    exact hrule.climb (by decide) .expr (by decide)

theorem like {x : Token} {negated : Bool} (hx : x.kind = .ident)
    (hop : op.kind.binary? = some (.like negated)) (hm : SpellsIn c [.rule .pattern] tokens [m]) :
    SpellsIn (c + 1) [.rule .simple] ([x] ++ op :: tokens) [.binary 0 op (.leaf 0 x) m] := by
  cases hkind : op.kind <;> rw [hkind] at hop <;> cases hop
  all_goals
    have hsymbols := (token hx).cons ((token hkind).cons hm)
    rw [Nat.zero_max, Nat.zero_max] at hsymbols
    exact @rule_of_pos _ _ _ _ .simple ⟨.binary, _⟩ (by decide) hsymbols hm.pos rfl

theorem isIn {x start stop : Token} {negated : Bool} {items : List String}
    (hx : x.kind = .ident) (hop : op.kind.binary? = some (.isIn negated))
    (hstart : start.kind = openParen) (hstop : stop.kind = closeParen)
    (hm : SpellsIn c [.rule .stringList] tokens [.list 0 items]) :
    SpellsIn (c + 1) [.rule .simple] ([x] ++ op :: (start :: (tokens ++ [stop])))
      [.binary 0 op (.leaf 0 x) (.list 0 items)] := by
  cases hkind : op.kind <;> rw [hkind] at hop <;> cases hop
  all_goals
    have hlist := (token hstart).cons (hm.cons (token hstop))
    have hsymbols := (token hx).cons ((token hkind).cons hlist)
    rw [Nat.zero_max, Nat.zero_max, Nat.zero_max, Nat.max_zero] at hsymbols
    exact @rule_of_pos _ _ _ _ .simple ⟨.binaryList, _⟩ (by decide) hsymbols hm.pos rfl

theorem postfixOp {x : Token} {negated : Bool} (hx : x.kind = .ident)
    (hop : op.kind.postfixNegated? = some negated) :
    SpellsIn 2 [.rule .simple] [x, op] [.postfixOp 0 op (.leaf 0 x)] := by
  cases hkind : op.kind <;> rw [hkind] at hop <;> first | contradiction | skip
  case isNull =>
    exact @rule _ _ _ _ .simple 5 ⟨.postfixOp, _⟩ rfl ((token hx).cons (token hkind)) rfl
  case isNotNull =>
    exact @rule _ _ _ _ .simple 6 ⟨.postfixOp, _⟩ rfl ((token hx).cons (token hkind)) rfl

end SpellsIn

/-- An expression is a selector. -/
theorem SpellsIn.isSentence {tokens : List Token} {n : Node} {c : Nat}
    (h : SpellsIn c [.rule .expr] tokens [n]) :
    ∃ d : Derivation, d.IsSentence tokens ∧ d.tree? = some n.number.1 ∧ d.calls = c := by
  obtain ⟨d, hd, hyield, hnodes, hcalls⟩ := h
  exact ⟨d, ⟨hd, hyield⟩, by rw [Derivation.tree?, hnodes], hcalls⟩

/-! ## Without the calls -/

theorem SpellsIn.spells {c : Nat} {symbols : List Symbol} {tokens : List Token} {nodes : List Node}
    (h : SpellsIn c symbols tokens nodes) : Spells symbols tokens nodes := by
  obtain ⟨d, hd, hyield, hnodes, -⟩ := h
  exact ⟨d, hd, hyield, hnodes⟩

namespace Spells

variable {symbols : List Symbol} {tokens more : List Token} {nodes : List Node} {op : Token}
  {m n : Node}

theorem spellsIn (h : Spells symbols tokens nodes) : ∃ c, SpellsIn c symbols tokens nodes := by
  obtain ⟨d, hd, hyield, hnodes⟩ := h
  exact ⟨d.calls, d, hd, hyield, hnodes, rfl⟩

theorem literal {t : Token} (h : t.kind.isOperand) : Spells [.rule .simple] [t] [.leaf 0 t] :=
  (SpellsIn.literal h).spells

theorem expr (h : Spells [.rule .simple] tokens [n]) : Spells [.rule .expr] tokens [n] := by
  obtain ⟨c, h⟩ := h.spellsIn
  exact h.expr.spells

theorem interior {start stop : Token} (hstart : start.kind = openParen)
    (hstop : stop.kind = closeParen) (h : Spells [.rule .expr] tokens [n]) :
    Spells [.rule .simple] (start :: (tokens ++ [stop])) [n] := by
  obtain ⟨c, h⟩ := h.spellsIn
  exact (h.interior hstart hstop).spells

theorem operator {o : BinaryOperator} (ho : op.kind.binary? = some o)
    (htakes : o.takesExpressions)
    (hm : Spells [.rule .simple] tokens [m]) (hn : Spells [.rule .simple] more [n]) :
    Spells [.rule .expr] (tokens ++ op :: more) [.binary 0 op m n] := by
  obtain ⟨c, hm⟩ := hm.spellsIn
  obtain ⟨c', hn⟩ := hn.spellsIn
  exact (hm.operator ho htakes hn).spells

theorem prefixOp {o : PrefixOperator} (hop : op.kind.prefix? = some o)
    (hm : Spells [.rule .simple] tokens [m]) :
    Spells [.rule .expr] (op :: tokens) [.prefixOp 0 op m] := by
  obtain ⟨c, hm⟩ := hm.spellsIn
  exact (hm.prefixOp hop).spells

theorem postfixOp {x : Token} {negated : Bool} (hx : x.kind = .ident)
    (hop : op.kind.postfixNegated? = some negated) :
    Spells [.rule .simple] [x, op] [.postfixOp 0 op (.leaf 0 x)] :=
  (SpellsIn.postfixOp hx hop).spells

theorem isSentence (h : Spells [.rule .expr] tokens [n]) :
    ∃ d : Derivation, d.IsSentence tokens ∧ d.tree? = some n.number.1 := by
  obtain ⟨c, h⟩ := h.spellsIn
  obtain ⟨d, hd, htree, -⟩ := h.isSentence
  exact ⟨d, hd, htree⟩

end Spells

end MessageSelector
