import MessageSelector.Proofs.Formed

/-!
# Subtrees

The nodes of a tree are the roots of its subtrees, which are reached from child to child
(`induction_children`, `mem_preorder`). Every node of a formed tree is formed too (`Formed.of_mem`),
unless it is the right operand of `LIKE` or `IN`, which is no expression (`IsExpression`).
-/

namespace MessageSelector

namespace Node

/-- A node that has a value, which patterns and lists have not. -/
def IsExpression : Node → Prop
  | pattern _ _ | escaped _ _ _ | list _ _ => False
  | _ => True

/-- An identifier of the tree has the name. -/
def Mentions (n : Node) (name : String) : Prop :=
  ∃ id token, leaf id token ∈ n.preorder ∧ token.kind = .ident ∧ token.text = name

/-! ## From child to child -/

/-- What holds of a node where it holds of its children holds of every node. -/
theorem induction_children {P : Node → Prop} (h : ∀ n, (∀ c ∈ n.children, P c) → P n) (n : Node) :
    P n := by
  induction n with
  | leaf | list => exact h _ (List.forall_mem_nil _)
  | prefixOp _ _ _ ih | postfixOp _ _ _ ih | pattern _ _ ih =>
    exact h _ (List.forall_mem_singleton.2 ih)
  | binary _ _ _ _ ihl ihr | escaped _ _ _ ihl ihr =>
    exact h _ (List.forall_mem_cons.2 ⟨ihl, List.forall_mem_singleton.2 ihr⟩)
  | ternary _ _ _ _ _ ih₁ ih₂ ih₃ =>
    exact h _ (List.forall_mem_cons.2 ⟨ih₁, List.forall_mem_cons.2
      ⟨ih₂, List.forall_mem_singleton.2 ih₃⟩⟩)

theorem mem_preorder {m n : Node} :
    m ∈ n.preorder ↔ m = n ∨ ∃ c ∈ n.children, m ∈ c.preorder := by
  cases n <;> simp [preorder, children]

theorem mem_preorder_self (n : Node) : n ∈ n.preorder :=
  mem_preorder.2 (.inl rfl)

theorem mem_preorder_of_child {m c n : Node} (hc : c ∈ n.children) (hm : m ∈ c.preorder) :
    m ∈ n.preorder :=
  mem_preorder.2 (.inr ⟨c, hc, hm⟩)

/-- The nodes of a subtree are nodes of the tree. -/
theorem preorder_subset {m n : Node} (h : m ∈ n.preorder) : m.preorder ⊆ n.preorder := by
  induction n using induction_children with
  | h n ih =>
    rcases mem_preorder.1 h with rfl | ⟨c, hc, hm⟩
    · exact List.Subset.refl _
    · exact fun k hk => mem_preorder_of_child hc (ih c hc hm hk)

theorem Mentions.of_mem {m n : Node} {name : String} (hm : m ∈ n.preorder)
    (h : m.Mentions name) : n.Mentions name := by
  obtain ⟨id, token, hmem, htoken⟩ := h
  exact ⟨id, token, preorder_subset hm hmem, htoken⟩

/-! ## Formed subtrees -/

variable {ok : Token → Prop}

/-- A node of a formed tree. -/
inductive FormedPart (ok : Token → Prop) : Node → Prop
  | expression {n : Node} : n.Formed ok → FormedPart ok n
  | pattern {n : Node} : n.PatternFormed ok → FormedPart ok n
  | list (id : Nat) (items : List String) : FormedPart ok (.list id items)

theorem FormedPart.children {n : Node} (h : n.FormedPart ok) :
    ∀ c ∈ n.children, c.FormedPart ok := by
  have hleaf {i : Nat} {t : Token} {kind : Token.Kind} (hk : t.kind = kind)
      (hkind : kind.isOperand) (ht : ok t) : FormedPart ok (leaf i t) :=
    .expression (.leaf (hk ▸ hkind) ht)
  have htwo {c d : Node} (hc : c.FormedPart ok) (hd : d.FormedPart ok) :
      ∀ e ∈ [c, d], e.FormedPart ok :=
    List.forall_mem_cons.2 ⟨hc, List.forall_mem_singleton.2 hd⟩
  cases h with
  | list => exact List.forall_mem_nil _
  | pattern h =>
    cases h with
    | pattern hk ht => exact List.forall_mem_singleton.2 (hleaf hk rfl ht)
    | escaped hk ht hk' ht' => exact htwo (hleaf hk rfl ht) (hleaf hk' rfl ht')
  | expression h =>
    cases h with
    | leaf => exact List.forall_mem_nil _
    | binary _ _ hl hr => exact htwo (.expression hl) (.expression hr)
    | like _ hk hx hp => exact htwo (hleaf hk rfl hx) (.pattern hp)
    | isIn _ hk hx _ => exact htwo (hleaf hk rfl hx) (.list _ _)
    | ternary _ h₁ h₂ h₃ =>
      exact List.forall_mem_cons.2 ⟨.expression h₁, htwo (.expression h₂) (.expression h₃)⟩
    | prefixOp _ h => exact List.forall_mem_singleton.2 (.expression h)
    | postfixOp _ hk hx => exact List.forall_mem_singleton.2 (hleaf hk rfl hx)

theorem FormedPart.of_mem {m n : Node} (h : n.FormedPart ok) (hm : m ∈ n.preorder) :
    m.FormedPart ok := by
  induction n using induction_children with
  | h n ih =>
    rcases mem_preorder.1 hm with rfl | ⟨c, hc, hm⟩
    · exact h
    · exact ih c hc (h.children c hc) hm

/-- A formed tree has a value. -/
theorem Formed.isExpression {n : Node} (h : n.Formed ok) : n.IsExpression := by
  cases h <;> exact trivial

/-- The expressions of a formed tree are formed. -/
theorem Formed.of_mem {m n : Node} (h : n.Formed ok) (hm : m ∈ n.preorder)
    (he : m.IsExpression) : m.Formed ok := by
  cases (FormedPart.expression h).of_mem hm with
  | expression h => exact h
  | pattern h => cases h <;> exact he.elim
  | list => exact he.elim

end Node

end MessageSelector
