import MessageSelector.Proofs.Subtrees
import MessageSelector.Proofs.Translation

/-!
# Errors of the compiler

The compiler takes trees of any make. What can be wrong with a tree is wrong with one of its
expressions (`Compiles`): the root, or an operand that is compiled as an expression again. Such a
node stands where its kind cannot, or it is a number without a value (`Fault`). A tree without
faults is compiled; otherwise the answer is the fault of one of its expressions, and always one that
blames the tree (`compile_outcome`, `compile_classified`). Numbers that are no finite floating point
number (`Token.NonFinite`) have no value to begin with, so the error for literals that cannot be
written is never met.
-/

namespace MessageSelector

namespace Node

/-! ## Expressions and their faults -/

/-- The children that are compiled as expressions, unlike the right operands of `LIKE` and `IN`. -/
def operands : Node → List Node
  | binary _ op left right =>
    match op.kind.binary? with
    | some (.like _) | some (.isIn _) => [left]
    | _ => [left, right]
  | ternary _ _ first second third => [first, second, third]
  | prefixOp _ _ operand | postfixOp _ _ operand => [operand]
  | leaf _ _ | pattern _ _ | escaped _ _ _ | list _ _ => []

/-- A node that is compiled as an expression: the tree itself, or an operand further down. -/
inductive Compiles : Node → Node → Prop
  | root (n : Node) : Compiles n n
  | operand {m c n : Node} : c ∈ n.operands → Compiles c m → Compiles n m

def isPattern : Node → Bool
  | pattern _ _ | escaped _ _ _ => true
  | _ => false

def isList : Node → Bool
  | list _ _ => true
  | _ => false

/-- What can be wrong with the right operand of `LIKE`: it is no pattern, or its text or its escape
is no string literal. -/
inductive PatternFault : Node → Defect → Prop
  | noPattern {p : Node} : p.isPattern = false → PatternFault p (.misplaced .likeOperand)
  | noString {p c : Node} : p.isPattern → c ∈ p.children → c.string? = none →
    PatternFault p (.misplaced .patternString)

/-- What can be wrong with a node that is compiled as an expression. -/
inductive Fault : Node → Defect → Prop
  /-- A pattern or a list -/
  | stray {n : Node} : ¬ n.IsExpression → Fault n (.misplaced .operand)
  /-- A leaf of an operator or a mark -/
  | noOperand {id : Nat} {t : Token} : t.kind.isOperand = false →
    Fault (.leaf id t) (.noLeafTerm t.text)
  /-- A number that its representation cannot hold, or whose text is not that of a number -/
  | noValue {id : Nat} {t : Token} : ¬ t.Valued → Fault (.leaf id t) (.noLeafTerm t.text)
  /-- A token that is no operator between two operands -/
  | noBinary {id : Nat} {op : Token} {left right : Node} : op.kind.binary? = none →
    Fault (.binary id op left right) (.notCompilable op.kind .binary)
  | noTernary {id : Nat} {op : Token} {first second third : Node} :
    op.kind.ternaryNegated? = none →
      Fault (.ternary id op first second third) (.notCompilable op.kind .ternary)
  | noPrefix {id : Nat} {op : Token} {operand : Node} : op.kind.prefix? = none →
    Fault (.prefixOp id op operand) (.notCompilable op.kind .prefixOp)
  | noPostfix {id : Nat} {op : Token} {operand : Node} : op.kind.postfixNegated? = none →
    Fault (.postfixOp id op operand) (.notCompilable op.kind .postfixOp)
  /-- `LIKE` without a pattern of string literals -/
  | noPattern {id : Nat} {op : Token} {left right : Node} {negated : Bool} {d : Defect} :
    op.kind.binary? = some (.like negated) → PatternFault right d →
      Fault (.binary id op left right) d
  /-- `IN` without a list -/
  | noList {id : Nat} {op : Token} {left right : Node} {negated : Bool} :
    op.kind.binary? = some (.isIn negated) → right.isList = false →
      Fault (.binary id op left right) (.misplaced .inOperand)

theorem operands_subset (n : Node) : n.operands ⊆ n.children := by
  cases n with
  | binary id op left right =>
    rw [operands]
    split <;> simp [children]
  | leaf | ternary | prefixOp | postfixOp | pattern | escaped | list => simp [operands, children]

/-- What compiling a tree ends with: a text, if no expression of the tree has a fault, or the fault
of one of them. -/
inductive Outcome (n : Node) : Except CompileError String → Prop
  | ok {text : String} : (∀ m d, n.Compiles m → ¬ m.Fault d) → Outcome n (.ok text)
  | error {m : Node} {d : Defect} : n.Compiles m → m.Fault d → Outcome n (.error (.defect d))

/-! ## Nodes with a fault -/

end Node

namespace Compilation

theorem leaf_of_no_operand {t : Token} (hk : t.kind.isOperand = false) :
    leaf t = .error (.defect (.noLeafTerm t.text)) := by
  rw [leaf, Token.payload?]
  cases h : t.kind <;> rw [h] at hk <;> first | rfl | cases hk

theorem leaf_of_not_valued {t : Token} (h : ¬ t.Valued) :
    leaf t = .error (.defect (.noLeafTerm t.text)) := by
  rw [Token.Valued, Scan.stopsAt, Bool.not_eq_false, Bool.and_eq_true,
    Option.isNone_iff_eq_none] at h
  obtain ⟨hk, hnone⟩ := h
  rw [leaf, hnone]
  cases h : t.kind <;> rw [h] at hk <;> first | rfl | cases hk

theorem pattern_of_fault {p : Node} {d : Defect} (h : p.PatternFault d) :
    pattern p = .error (.defect d) := by
  cases h with
  | noPattern hp =>
    cases p with
    | pattern | escaped => cases hp
    | leaf | binary | ternary | prefixOp | postfixOp | list => rfl
  | noString hp hc hnone =>
    cases p with
    | leaf | binary | ternary | prefixOp | postfixOp | list => cases hp
    | pattern id text =>
      obtain rfl := List.mem_singleton.1 hc
      rw [pattern, stringLeaf, hnone]
      rfl
    | escaped id text escape =>
      rw [pattern, stringLeaf, stringLeaf]
      rcases List.mem_pair.1 hc with rfl | rfl
      · rw [hnone]
        rfl
      · rw [hnone]
        cases text.string? <;> rfl

theorem pattern_of_faultless {p : Node} (h : ∀ d, ¬ p.PatternFault d) :
    ∃ text, pattern p = .ok text := by
  have hstring (hp : p.isPattern) {c : Node} (hc : c ∈ p.children) :
      ∃ text, stringLeaf c = .ok text := by
    cases hs : c.string? with
    | none => exact absurd (.noString hp hc hs) (h _)
    | some s => exact ⟨_, by rw [stringLeaf, hs]⟩
  cases p with
  | leaf | binary | ternary | prefixOp | postfixOp | list => exact absurd (.noPattern rfl) (h _)
  | pattern id text =>
    obtain ⟨s, hs⟩ := hstring rfl (List.mem_singleton_self text)
    exact ⟨_, by rw [pattern, hs]; rfl⟩
  | escaped id text escape =>
    obtain ⟨s, hs⟩ := hstring rfl (List.mem_cons_self (a := text))
    obtain ⟨e, he⟩ := hstring rfl (List.mem_pair.2 (.inr rfl) : escape ∈ [text, escape])
    exact ⟨_, by rw [pattern, hs, he]; rfl⟩

theorem list_of_not_isList {n : Node} (h : n.isList = false) :
    list n = .error (.defect (.misplaced .inOperand)) := by
  cases n with
  | list => cases h
  | leaf | binary | ternary | prefixOp | postfixOp | pattern | escaped => rfl

end Compilation

namespace Node

variable {n : Node} {d : Defect}

theorem operands_binary {id : Nat} {op : Token} {left right : Node} {o : BinaryOperator}
    (ho : op.kind.binary? = some o) (htakes : o.takesExpressions) :
    (binary id op left right).operands = [left, right] := by
  rw [operands, ho]
  cases o with
  | and | or | compare | arith => rfl
  | like | isIn => cases htakes

/-- A node without a fault is written around the texts of its operands. -/
theorem compile_of_faultless (h : ∀ d, ¬ n.Fault d) :
    ∃ f : List String → String, n.compile = f <$> n.operands.mapM compile := by
  cases n with
  | leaf id t =>
    have hk : t.kind.isOperand := by
      by_contra hk
      exact h _ (.noOperand (by simpa using hk))
    have hvalued : t.Valued := Classical.not_not.1 fun hv => h _ (.noValue hv)
    obtain ⟨text, htext, -⟩ := Compilation.leaf_writes (hvalued.literal hk)
    exact ⟨fun _ => text, htext⟩
  | pattern | escaped | list => exact absurd (.stray not_false) (h _)
  | binary id op left right =>
    cases ho : op.kind.binary? with
    | none => exact absurd (.noBinary ho) (h _)
    | some o =>
      have hexpressions (htakes : o.takesExpressions) : ∃ f : List String → String,
          (binary id op left right).compile =
            f <$> (binary id op left right).operands.mapM compile := by
        refine ⟨Compilation.tagged o.tag, ?_⟩
        rw [operands_binary ho htakes, compile, ho]
        cases o with
        | and | or | compare | arith => simp
        | like | isIn => cases htakes
      cases o with
      | and | or | compare | arith => exact hexpressions rfl
      | like negated =>
        obtain ⟨p, hp⟩ := Compilation.pattern_of_faultless fun d hd => h d (.noPattern ho hd)
        refine ⟨fun ls => Compilation.tagged (BinaryOperator.like negated).tag (ls ++ [p]), ?_⟩
        rw [compile, operands, ho, hp, List.mapM_cons, List.mapM_nil]
        cases left.compile <;> rfl
      | isIn negated =>
        cases right with
        | list j items =>
          refine ⟨fun ls => Compilation.tagged (BinaryOperator.isIn negated).tag
            (ls ++ [Term.listText (items.map Term.binaryText)]), ?_⟩
          rw [compile, operands, ho, Compilation.list, List.mapM_cons, List.mapM_nil]
          cases left.compile <;> rfl
        | leaf | binary | ternary | prefixOp | postfixOp | pattern | escaped =>
          exact absurd (.noList ho rfl) (h _)
  | ternary id op first second third =>
    cases ho : op.kind.ternaryNegated? with
    | none => exact absurd (.noTernary ho) (h _)
    | some negated =>
      refine ⟨fun ls => Compilation.tagged (if negated then "not_between" else "between")
        (ls.take 1 ++ [Compilation.tagged "range" (ls.drop 1)]), ?_⟩
      rw [compile, operands, ho]
      simp
  | prefixOp id op operand =>
    cases ho : op.kind.prefix? with
    | none => exact absurd (.noPrefix ho) (h _)
    | some o =>
      refine ⟨Compilation.tagged o.tag, ?_⟩
      rw [compile, operands, ho]
      simp
  | postfixOp id op operand =>
    cases ho : op.kind.postfixNegated? with
    | none => exact absurd (.noPostfix ho) (h _)
    | some negated =>
      refine ⟨Compilation.tagged (if negated then "not_null" else "is_null"), ?_⟩
      rw [compile, operands, ho]
      simp

/-- The operands are compiled in their order, up to the first one with a fault. -/
theorem mapM_compile_cases {cs : List Node} (h : ∀ c ∈ cs, Outcome c c.compile) :
    (∃ texts, cs.mapM compile = .ok texts ∧ ∀ c ∈ cs, ∀ m d, c.Compiles m → ¬ m.Fault d) ∨
    ∃ c ∈ cs, ∃ m d, c.Compiles m ∧ m.Fault d ∧ cs.mapM compile = .error (.defect d) := by
  induction cs with
  | nil => exact .inl ⟨[], rfl, List.forall_mem_nil _⟩
  | cons c cs ih =>
    obtain ⟨hc, hcs⟩ := List.forall_mem_cons.1 h
    rw [List.mapM_cons]
    generalize c.compile = out at hc
    cases hc with
    | @error m d hm hd => exact .inr ⟨c, List.mem_cons_self, m, d, hm, hd, rfl⟩
    | @ok text hsound =>
      rcases ih hcs with ⟨texts, htexts, hrest⟩ | ⟨c', hc', m, d, hm, hd, herror⟩
      · rw [htexts]
        exact .inl ⟨text :: texts, rfl, List.forall_mem_cons.2 ⟨hsound, hrest⟩⟩
      · rw [herror]
        exact .inr ⟨c', List.mem_cons_of_mem _ hc', m, d, hm, hd, rfl⟩

theorem outcome_of_faultless (h : ∀ d, ¬ n.Fault d) (ih : ∀ c ∈ n.operands, Outcome c c.compile) :
    Outcome n n.compile := by
  obtain ⟨f, hf⟩ := compile_of_faultless h
  rw [hf]
  rcases mapM_compile_cases ih with ⟨texts, htexts, hsound⟩ | ⟨c, hc, m, d, hm, hd, herror⟩
  · rw [htexts]
    refine .ok fun m d hm => ?_
    cases hm with
    | root => exact h d
    | operand hc hm => exact hsound _ hc m d hm
  · rw [herror]
    exact .error (.operand hc hm) hd

theorem outcome_of_fault (hd : n.Fault d) (ih : ∀ c ∈ n.operands, Outcome c c.compile) :
    Outcome n n.compile := by
  have hn := hd
  cases hd with
  | stray hne =>
    cases n with
    | pattern | escaped | list => exact .error (.root _) hn
    | leaf | binary | ternary | prefixOp | postfixOp => exact absurd trivial hne
  | @noOperand id t hk =>
    rw [compile, Compilation.leaf_of_no_operand hk]
    exact .error (.root _) hn
  | @noValue id t hv =>
    rw [compile, Compilation.leaf_of_not_valued hv]
    exact .error (.root _) hn
  | noBinary ho | noTernary ho | noPrefix ho | noPostfix ho =>
    rw [compile, ho]
    exact .error (.root _) hn
  | @noPattern id op left right negated d ho hp =>
    -- The left operand is compiled before the pattern is looked at.
    have hleft := ih left (by simp [operands, ho])
    rw [compile, ho, Compilation.pattern_of_fault hp]
    generalize left.compile = out at hleft
    cases hleft with
    | ok => exact .error (.root _) hn
    | error hm hd => exact .error (.operand (by simp [operands, ho]) hm) hd
  | noList ho hl =>
    rw [compile, ho, Compilation.list_of_not_isList hl]
    exact .error (.root _) hn

/-- **What compiling ends with.** -/
theorem compile_outcome (n : Node) : Outcome n n.compile := by
  induction n using induction_children with
  | h n ih =>
    have hoperands : ∀ c ∈ n.operands, Outcome c c.compile := fun c hc =>
      ih c (n.operands_subset hc)
    by_cases h : ∃ d, n.Fault d
    · obtain ⟨d, hd⟩ := h
      exact outcome_of_fault hd hoperands
    · exact outcome_of_faultless (fun d hd => h ⟨d, hd⟩) hoperands

end Node

/-! ## Numbers that are not finite -/

/-- A floating point literal whose text, without its suffix, is read as a number that is not
finite. -/
def Token.NonFinite (t : Token) : Prop :=
  t.kind = .float ∧ ∃ x,
    Decimal.float? (t.text.toList.reverse.dropWhile Token.isFloatSuffix).reverse = some x ∧
      x.isFinite = false

/-- Such a number has no value, so what it stands for is not known to the compiler. -/
theorem Token.NonFinite.not_valued {t : Token} (h : t.NonFinite) : ¬ t.Valued := by
  obtain ⟨hk, x, hx, hfinite⟩ := h
  have hnone : t.payload? = none := by
    rw [Token.payload?, hk]
    simp [Token.float?, hx, hfinite]
  simp [Token.Valued, Scan.stopsAt, hk, hnone, Token.Kind.isNumeric]

namespace Node

/-- **Which trees are compiled, and what the others are blamed for.** A tree is compiled if and
only if none of its expressions has a fault. If one has, the error names a fault of some expression
of the tree. So where all faults are numbers that are not finite, the error names such a number,
and it names it as a leaf without a term. -/
theorem compile_classified (n : Node) :
    ((∃ text, n.compile = .ok text) ↔ ∀ m d, n.Compiles m → ¬ m.Fault d) ∧
    ((∃ m d, n.Compiles m ∧ m.Fault d) →
      ∃ m d, n.Compiles m ∧ m.Fault d ∧ n.compile = .error (.defect d)) ∧
    ((∃ m d, n.Compiles m ∧ m.Fault d) →
      (∀ m d, n.Compiles m → m.Fault d → ∃ id t, m = .leaf id t ∧ t.NonFinite) →
      ∃ id t, n.Compiles (.leaf id t) ∧ t.NonFinite ∧
        n.compile = .error (.defect (.noLeafTerm t.text))) := by
  have hout := n.compile_outcome
  generalize n.compile = out at hout
  cases hout with
  | @ok text hsound =>
    have hnone : ¬ ∃ m d, n.Compiles m ∧ m.Fault d := fun ⟨m, d, hm, hd⟩ => hsound m d hm hd
    exact ⟨⟨fun _ => hsound, fun _ => ⟨text, rfl⟩⟩, fun h => absurd h hnone,
      fun h => absurd h hnone⟩
  | @error m d hm hd =>
    refine ⟨⟨?_, fun h => absurd hd (h m d hm)⟩, fun _ => ⟨m, d, hm, hd, rfl⟩, fun _ honly => ?_⟩
    · rintro ⟨text, ⟨⟩⟩
    obtain ⟨id, t, rfl, ht⟩ := honly m d hm hd
    cases hd with
    | stray hne => exact absurd trivial hne
    | noOperand | noValue => exact ⟨id, t, hm, ht, rfl⟩

theorem compiles_iff {m n : Node} :
    n.Compiles m ↔ m = n ∨ ∃ c ∈ n.operands, c.Compiles m := by
  constructor
  · intro h
    cases h with
    | root => exact .inl rfl
    | operand hc hm => exact .inr ⟨_, hc, hm⟩
  · rintro (rfl | ⟨c, hc, hm⟩)
    · exact .root _
    · exact .operand hc hm

theorem compiles_leaf {m : Node} {id : Nat} {t : Token} :
    (leaf id t).Compiles m ↔ m = leaf id t := by
  rw [compiles_iff]
  simp [operands]

/-- A literal beyond the range of floating point numbers. -/
theorem nonFinite_exponent (offset : Nat) : (⟨.float, "1e400", offset⟩ : Token).NonFinite := by
  have hread : Decimal.float? ("1e400".toList.reverse.dropWhile Token.isFloatSuffix).reverse =
      some Decimal.Numeral.infinity := by decide +kernel
  exact ⟨rfl, _, hread, by decide +kernel⟩

/-- A property is compared with a number that is not finite. -/
theorem compile_classified_less :
    let x : Token := ⟨.ident, "x", 0⟩
    let bound : Token := ⟨.float, "1e400", 4⟩
    let tree : Node := .binary 0 ⟨.less, "<", 2⟩ (.leaf 1 x) (.leaf 2 bound)
    bound.NonFinite ∧ tree.compile = .error (.defect (.noLeafTerm "1e400")) := by
  intro x bound tree
  have hbound : bound.NonFinite := nonFinite_exponent 4
  have hvalued : x.Valued := rfl
  have hcompiles (m : Node) : tree.Compiles m ↔
      m = .binary 0 ⟨.less, "<", 2⟩ (.leaf 1 x) (.leaf 2 bound) ∨
        m = .leaf 1 x ∨ m = .leaf 2 bound := by
    rw [compiles_iff]
    simp [tree, operands, compiles_leaf, Token.Kind.binary?, Token.Kind.comparison?]
  have honly : ∀ m d, tree.Compiles m → m.Fault d → ∃ id t, m = .leaf id t ∧ t.NonFinite := by
    intro m d hm hd
    rcases (hcompiles m).1 hm with rfl | rfl | rfl
    · cases hd with
      | stray hne => exact absurd trivial hne
      | noBinary ho | noPattern ho | noList ho => cases ho
    · cases hd with
      | stray hne => exact absurd trivial hne
      | noOperand hk => cases hk
      | noValue hv => exact absurd hvalued hv
    · exact ⟨2, bound, rfl, hbound⟩
  have hsome : ∃ m d, tree.Compiles m ∧ m.Fault d :=
    ⟨_, _, (hcompiles _).2 (.inr (.inr rfl)), .noValue hbound.not_valued⟩
  obtain ⟨id, t, hm, ht, herror⟩ := (compile_classified tree).2.2 hsome honly
  rcases (hcompiles _).1 hm with h | h | h <;> cases h
  · cases ht.1
  · exact ⟨hbound, herror⟩

/-- A number that is not finite is not reported as a literal that cannot be written. -/
theorem compile_nonFinite_not_unsupported :
    ¬ ∀ n : Node, (∃ m d, n.Compiles m ∧ m.Fault d) →
      (∀ m d, n.Compiles m → m.Fault d → ∃ id t, m = .leaf id t ∧ t.NonFinite) →
      ∃ id t, n.Compiles (.leaf id t) ∧ t.NonFinite ∧
        n.compile = .error (.unsupportedLiteral t.text) := by
  intro h
  have hbound := nonFinite_exponent 0
  obtain ⟨id, t, -, -, herror⟩ := h (.leaf 0 ⟨.float, "1e400", 0⟩)
    ⟨_, _, .root _, .noValue hbound.not_valued⟩
    fun m d hm _ => ⟨0, _, compiles_leaf.1 hm, hbound⟩
  rw [compile, Compilation.leaf_of_not_valued hbound.not_valued] at herror
  cases herror

end Node

end MessageSelector
