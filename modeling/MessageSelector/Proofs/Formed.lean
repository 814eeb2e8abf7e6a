import MessageSelector.Proofs.Coverage

/-!
# Formed trees

The trees that the actions of the grammar can build (`Formed`, `Derivation.IsSentence.tree_formed`).
A pattern stands only to the right of `LIKE` and a list only to the right of `IN`; the left operand
of both, and the operand of a null test, is an identifier; every operator stands in a place that
gives it a meaning. The predicate is relative to a property `ok` of the tokens of the leaves, so
that what is known of the tokens of a text is known of the leaves of its tree.
-/

namespace MessageSelector

namespace Node

variable {ok : Token → Prop}

/-- The right operand of `LIKE`, as the grammar builds it. -/
inductive PatternFormed (ok : Token → Prop) : Node → Prop
  | pattern {id i : Nat} {text : Token} :
    text.kind = .string → ok text → PatternFormed ok (.pattern id (.leaf i text))
  | escaped {id i j : Nat} {text escape : Token} :
    text.kind = .string → ok text → escape.kind = .string → ok escape →
      PatternFormed ok (.escaped id (.leaf i text) (.leaf j escape))

/-- An expression, as the grammar builds it. -/
inductive Formed (ok : Token → Prop) : Node → Prop
  | leaf {id : Nat} {t : Token} : t.kind.isOperand → ok t → Formed ok (.leaf id t)
  | binary {id : Nat} {op : Token} {o : BinaryOperator} {left right : Node} :
    op.kind.binary? = some o → o.takesExpressions → Formed ok left → Formed ok right →
      Formed ok (.binary id op left right)
  | like {id i : Nat} {op x : Token} {negated : Bool} {p : Node} :
    op.kind.binary? = some (.like negated) → x.kind = .ident → ok x → PatternFormed ok p →
      Formed ok (.binary id op (.leaf i x) p)
  | isIn {id i j : Nat} {op x : Token} {negated : Bool} {items : List String} :
    op.kind.binary? = some (.isIn negated) → x.kind = .ident → ok x → items ≠ [] →
      Formed ok (.binary id op (.leaf i x) (.list j items))
  | ternary {id : Nat} {op : Token} {negated : Bool} {first second third : Node} :
    op.kind.ternaryNegated? = some negated → Formed ok first → Formed ok second →
      Formed ok third → Formed ok (.ternary id op first second third)
  | prefixOp {id : Nat} {op : Token} {o : PrefixOperator} {operand : Node} :
    op.kind.prefix? = some o → Formed ok operand → Formed ok (.prefixOp id op operand)
  | postfixOp {id i : Nat} {op x : Token} {negated : Bool} :
    op.kind.postfixNegated? = some negated → x.kind = .ident → ok x →
      Formed ok (.postfixOp id op (.leaf i x))

/-! ## Covered trees are formed -/

variable {tokens : List Token}

theorem PatternCovers.formed {n : Node} (h : n.PatternCovers tokens) (hok : ∀ t ∈ tokens, ok t) :
    n.PatternFormed ok := by
  cases h with
  | pattern hk => exact .pattern hk (hok _ List.mem_cons_self)
  | escaped hk _ hk' => exact .escaped hk (hok _ (by simp)) hk' (hok _ (by simp))

theorem ItemsCover.ne_nil {items : List String} (h : ItemsCover items tokens) : items ≠ [] := by
  cases h <;> exact List.cons_ne_nil _ _

/-- What is known of the tokens of a selector is known of the leaves of its tree. -/
theorem Covers.formed {r : Rule} {n : Node} (h : Covers r n tokens) (hok : ∀ t ∈ tokens, ok t) :
    n.Formed ok := by
  induction h with
  | leaf hk => exact .leaf hk (hok _ List.mem_cons_self)
  | brackets _ _ _ ih => exact ih fun t ht => hok t (by simp [ht])
  | binary ho htakes _ _ _ _ ihl ihr =>
    exact .binary ho htakes (ihl fun t ht => hok t (by simp [ht]))
      (ihr fun t ht => hok t (by simp [ht]))
  | like ho hk hp =>
    exact .like ho hk (hok _ List.mem_cons_self) (hp.formed fun t ht => hok t (by simp [ht]))
  | isIn ho hk _ _ hitems => exact .isIn ho hk (hok _ List.mem_cons_self) hitems.ne_nil
  | ternary ho _ _ _ _ _ _ _ ih₁ ih₂ ih₃ =>
    exact .ternary ho (ih₁ fun t ht => hok t (by simp [ht]))
      (ih₂ fun t ht => hok t (by simp [ht])) (ih₃ fun t ht => hok t (by simp [ht]))
  | prefixOp ho _ _ ih => exact .prefixOp ho (ih fun t ht => hok t (by simp [ht]))
  | postfixOp ho hk => exact .postfixOp ho hk (hok _ List.mem_cons_self)

end Node

/-- A derivation of a selector has a tree, and the tree is formed. -/
theorem Derivation.IsSentence.tree_formed {ok : Token → Prop} {tokens : List Token}
    {d : Derivation} (h : d.IsSentence tokens) (hok : ∀ t ∈ tokens, ok t) :
    ∃ tree, d.tree? = some tree ∧ tree.Formed ok := by
  obtain ⟨tree, r, htree, hcovers⟩ := h.tree_covers
  exact ⟨tree, htree, hcovers.formed hok⟩

end MessageSelector
