import MessageSelector.Proofs.Nesting
import MessageSelector.Proofs.Tables
import MessageSelector.Proofs.Translation

/-!
# The depth of terms

No rule of the grammar nests more than two sequences in the term of its tree
(`Action.depth_build_le`), so the limit of recognition keeps every term within the limit of the
reader (`Derivation.IsSentence.depth_term_le`).
-/

namespace MessageSelector

open MessageSelector.Derivation (Derives)

/-! ## One rule -/

theorem Token.depth_term_le (t : Token) : t.term.depth ≤ 1 := by
  rw [Token.term]
  split
  case h_4 =>
    split
    case h_4 n _ => cases Number.ofUInt64 n <;> simp [Term.Reader.ofNumber, Term.depth]
    all_goals simp [Term.depth, Term.depthAll]
  all_goals simp [Term.depth, Term.depthAll]

theorem Node.depth_term_list (i : Nat) (items : List String) :
    (Node.list i items).term.depth = 1 := by
  have hitems : Term.depthAll (items.map Term.binary) = 0 := by
    induction items with
    | nil => rfl
    | cons s items ih => simp [Term.depthAll, Term.depth, ih]
  rw [Node.term, Term.depth, hitems]

/-- An action nests one more sequence than its children do, and two for `BETWEEN`. -/
theorem Action.depth_build_le {action : Action} {children : List Node} {n : Node} {b : Nat}
    (h : action.build children = .ok n) (hchildren : ∀ c ∈ children, c.term.depth ≤ b) :
    n.term.depth ≤ (if action = .ternary then b + 2 else b + 1) := by
  unfold Action.build at h
  split at h <;> simp only [bind_eq_ok, Except.ok.injEq, reduceCtorEq] at h
  case h_10 =>
    obtain ⟨s, -, ⟨⟩⟩ := h
    rw [Node.depth_term_list]
    exact Nat.le_add_left 1 b
  case h_11 =>
    obtain ⟨s, -, items, -, ⟨⟩⟩ := h
    rw [Node.depth_term_list]
    exact Nat.le_add_left 1 b
  case h_1 | h_2 | h_8 | h_9 =>
    subst h
    simp only [List.forall_mem_cons] at hchildren
    simp [Node.term, Term.depth, Term.depthAll]
    grind
  all_goals
    obtain ⟨op, -, ⟨⟩⟩ := h
    simp only [List.forall_mem_cons] at hchildren
    simp [Node.term, Term.depth, Term.depthAll]
    grind

theorem Action.build_collapse {children : List Node} {n : Node}
    (h : Action.collapse.build children = .ok n) : children = [n] := by
  rcases children with _ | ⟨c, _ | ⟨c', rest⟩⟩
  · cases h
  · cases h
    rfl
  · cases h

/-! ## Derivations -/

/-- The operands of `BETWEEN` are derived by rules. -/
theorem Rule.ternary_symbols {r : Rule} {a : Alternative} (ha : a ∈ r.alternatives)
    (haction : a.action = .ternary) : ∃ s rest, a.symbols = .rule s :: rest := by
  cases r <;> simp only [Rule.alternatives, List.mem_cons, List.not_mem_nil, or_false] at ha
  all_goals
    rcases ha with rfl | rfl | rfl | rfl | rfl | rfl | rfl | rfl | rfl | rfl | rfl | rfl
    all_goals first | exact ⟨_, _, rfl⟩ | exact absurd haction (by decide)

namespace Derivation

/-- Every level of a derivation nests at most two sequences in the terms of its trees. -/
theorem Derives.depth_term_le {symbols : List Symbol} {d : Derivation} (h : Derives symbols d)
    {nodes : List Node} (hnodes : d.nodes? = some nodes) {n : Node} (hn : n ∈ nodes) :
    n.term.depth ≤ max (2 * d.height) 1 := by
  induction h generalizing nodes n with
  | done =>
    cases hnodes
    cases hn
  | @token kind t symbols rest _ _ ih =>
    obtain ⟨more, hmore, rfl⟩ := Option.map_eq_some_iff.1 hnodes
    rcases List.mem_cons.1 hn with rfl | hn
    · exact Nat.le_trans t.depth_term_le (Nat.le_max_right _ _)
    · exact ih hmore hn
  | @rule r index a symbols body rest ha hbody _ ihbody ihrest =>
    obtain ⟨a', children, m, more, ha', hchildren, hm, hmore, rfl⟩ := nodes?_rule.1 hnodes
    rw [ha] at ha'
    cases ha'
    simp only [height]
    rcases List.mem_cons.1 hn with rfl | hn
    · have hdepth := Action.depth_build_le hm fun c hc => ihbody hchildren hc
      split at hdepth
      · next haction =>
        -- The first symbol is a rule, so the body has a level of its own.
        obtain ⟨s, xs, hs⟩ := Rule.ternary_symbols (List.mem_of_getElem? ha) haction
        have hpos : 0 < body.height := by
          rw [hs] at hbody
          cases hbody with
          | rule => exact Nat.lt_of_lt_of_le (Nat.succ_pos _) (Nat.le_max_left _ _)
        omega
      · omega
    · have hle := ihrest hmore hn
      omega

end Derivation

theorem Node.term_numberFrom (n : Node) (next : Nat) : (n.numberFrom next).1.term = n.term := by
  induction n generalizing next with
  | leaf | list => rfl
  | binary _ _ _ _ ih₁ ih₂ => simp only [numberFrom, term, ih₁, ih₂]
  | ternary _ _ _ _ _ ih₁ ih₂ ih₃ => simp only [numberFrom, term, ih₁, ih₂, ih₃]
  | prefixOp _ _ _ ih | postfixOp _ _ _ ih | pattern _ _ ih => simp only [numberFrom, term, ih]
  | escaped _ _ _ ih₁ ih₂ => simp only [numberFrom, term, ih₁, ih₂]

/-- The root rule adds nothing to the tree of the rule below it. -/
theorem Derivation.IsSentence.depth_term_le {tokens : List Token} {d : Derivation}
    (h : d.IsSentence tokens) {tree : Node} (htree : d.tree? = some tree) :
    tree.term.depth + 2 ≤ 2 * d.height := by
  rw [tree?] at htree
  split at htree
  · next node hnode =>
    cases htree
    rw [Node.number, Node.term_numberFrom]
    cases h.derives with
    | @rule _ index a _ body _ ha hbody hrest =>
      cases hrest
      obtain ⟨rfl, rfl⟩ : index = 0 ∧ a = ⟨.collapse, [.rule .orExpr]⟩ := by
        rcases index with _ | _ <;> simp_all [Rule.root, Rule.alternatives]
      obtain ⟨a', children, m, _, ha', hchildren, hm, ⟨⟩, ⟨⟩⟩ := nodes?_rule.1 hnode
      cases ha'
      have hdepth : node.term.depth ≤ max (2 * body.height) 1 := by
        have hmem := Action.build_collapse hm
        exact hbody.depth_term_le hchildren (by rw [hmem]; exact List.mem_singleton_self node)
      have hpos : 0 < body.height := by
        cases hbody with
        | rule => exact Nat.lt_of_lt_of_le (Nat.succ_pos _) (Nat.le_max_left _ _)
      simp only [height]
      omega
  · cases htree

end MessageSelector
