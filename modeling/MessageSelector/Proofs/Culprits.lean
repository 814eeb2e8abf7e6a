import MessageSelector.Proofs.Acceptance
import MessageSelector.Proofs.Accepted
import MessageSelector.Proofs.Types

/-!
# Culprits

A type error names the subexpression where it starts. An invalid child makes its parent invalid
(`Typing.invalid_of_child`), so the invalid nodes of a tree reach from the root down to those that
are invalid on their own account, the causes (`IsCause`). The search that follows invalid nodes
downwards and to the left ends at the cause that comes first in post-order
(`Upward.innermostInvalid?_eq_find?`), and that is the one an error names (`accept_culprit`).
-/

namespace MessageSelector

namespace Typing

variable {hints : Hints}

/-- A tree has a type if its children have types and the node has one over them. -/
theorem typeOf_eq_ok {n : Node} {type : ExprType} :
    typeOf hints n = .ok type ↔
      ∃ types, List.Forall₂ (fun c type => typeOf hints c = .ok type) n.children types ∧
        nodeOrInvalid hints n types = .ok type := by
  cases n <;>
    simp [typeOf, Node.children, bind_eq_ok, List.forall₂_cons_left_iff, and_assoc]

/-- An invalid child makes its parent invalid. -/
theorem invalid_of_child {n c : Node} {type : ExprType} (h : typeOf hints n = .ok type)
    (hc : c ∈ n.children) (hinvalid : typeOf hints c = .ok .invalid) : type = .invalid := by
  obtain ⟨types, htypes, hnode⟩ := typeOf_eq_ok.1 h
  by_contra hvalid
  have hnone := ((nodeOrInvalid_valid hvalid).1 hnode).1
  obtain ⟨i, hi, rfl⟩ := List.getElem_of_mem hc
  have hlength := htypes.length_eq
  have hchild := htypes.get hi (hlength ▸ hi)
  rw [List.get_eq_getElem, List.get_eq_getElem, hinvalid] at hchild
  exact hnone (Except.ok.inj hchild ▸ List.getElem_mem _)

end Typing

namespace Node

/-- The nodes of a tree in post-order: a node stands behind those below it. -/
def postorder : Node → List Node
  | leaf id token => [leaf id token]
  | list id items => [list id items]
  | binary id op left right => left.postorder ++ (right.postorder ++ [binary id op left right])
  | ternary id op first second third =>
    first.postorder ++ (second.postorder ++ (third.postorder ++
      [ternary id op first second third]))
  | prefixOp id op operand => operand.postorder ++ [prefixOp id op operand]
  | postfixOp id op operand => operand.postorder ++ [postfixOp id op operand]
  | pattern id text => text.postorder ++ [pattern id text]
  | escaped id text escape => text.postorder ++ (escape.postorder ++ [escaped id text escape])

/-- An invalid node whose children are all valid. -/
def IsCause (table : TypeTable) (n : Node) : Prop :=
  table.get n.id = .invalid ∧ ∀ c ∈ n.children, table.get c.id ≠ .invalid

instance (table : TypeTable) : DecidablePred (IsCause table) := fun n =>
  inferInstanceAs (Decidable (_ ∧ ∀ c ∈ n.children, table.get c.id ≠ .invalid))

/-- In the tree, an invalid child makes its parent invalid. -/
def Upward (table : TypeTable) (n : Node) : Prop :=
  ∀ m ∈ n.preorder, ∀ c ∈ m.children, table.get c.id = .invalid → table.get m.id = .invalid

/-! ## Orders and searches by the children of a node -/

theorem postorder_eq (n : Node) : n.postorder = n.children.flatMap postorder ++ [n] := by
  cases n <;> simp [postorder, children]

theorem mem_postorder {m n : Node} : m ∈ n.postorder ↔ m ∈ n.preorder := by
  induction n using induction_children with
  | h n ih =>
    rw [postorder_eq, mem_preorder, List.mem_append, List.mem_flatMap, List.mem_singleton, or_comm]
    exact or_congr_right (exists_congr fun c => and_congr_right fun hc => ih c hc)

theorem innermostInvalid?_eq (table : TypeTable) (n : Node) :
    n.innermostInvalid? table =
      if table.get n.id = .invalid then
        (n.children.findSome? (innermostInvalid? table)).or (some n)
      else none := by
  have findSome?_cons {f : Node → Option Node} {c : Node} {cs : List Node} :
      (c :: cs).findSome? f = (f c).or (cs.findSome? f) := by
    rw [List.findSome?_cons]
    cases f c <;> rfl
  cases n with
  | leaf | list => rfl
  | binary | ternary | prefixOp | postfixOp | pattern | escaped =>
    simp only [innermostInvalid?, children, id, findSome?_cons, List.findSome?_nil, Option.or_none,
      Option.or_assoc]

/-- A search depends on what it finds at the members of the list only. -/
theorem findSome?_congr {α β : Type} {f g : α → Option β} {xs : List α}
    (h : ∀ x ∈ xs, f x = g x) : xs.findSome? f = xs.findSome? g := by
  induction xs with
  | nil => rfl
  | cons x xs ih =>
    rw [List.forall_mem_cons] at h
    rw [List.findSome?_cons, List.findSome?_cons, h.1, ih h.2]

/-! ## Invalid nodes -/

variable {table : TypeTable}

theorem Upward.child {n c : Node} (h : n.Upward table) (hc : c ∈ n.children) : c.Upward table :=
  fun m hm => h m (mem_preorder_of_child hc hm)

/-- The root is invalid if some node is. -/
theorem Upward.invalid_iff {n : Node} (h : n.Upward table) :
    table.get n.id = .invalid ↔ ∃ m ∈ n.preorder, table.get m.id = .invalid := by
  refine ⟨fun hn => ⟨n, mem_preorder_self n, hn⟩, ?_⟩
  rintro ⟨m, hm, hinvalid⟩
  induction n using induction_children with
  | h n ih =>
    rcases mem_preorder.1 hm with rfl | ⟨c, hc, hmem⟩
    · exact hinvalid
    · exact h n (mem_preorder_self n) c hc (ih c hc (h.child hc) hmem)

/-- A tree with an invalid root has a cause. -/
theorem exists_isCause {n : Node} (hn : table.get n.id = .invalid) :
    ∃ m ∈ n.preorder, m.IsCause table := by
  induction n using induction_children with
  | h n ih =>
    by_cases hcause : n.IsCause table
    · exact ⟨n, mem_preorder_self n, hcause⟩
    · obtain ⟨c, hc, hinvalid⟩ : ∃ c ∈ n.children, table.get c.id = .invalid := by
        simpa [IsCause, hn] using hcause
      obtain ⟨m, hm, hcause⟩ := ih c hc hinvalid
      exact ⟨m, mem_preorder_of_child hc hm, hcause⟩

/-- The search for the innermost invalid node finds the first cause in post-order. -/
theorem Upward.innermostInvalid?_eq_find? {n : Node} (h : n.Upward table) :
    n.innermostInvalid? table = n.postorder.find? (IsCause table ·) := by
  induction n using induction_children with
  | h n ih =>
    have hchildren : n.children.findSome? (innermostInvalid? table) =
        (n.children.flatMap postorder).find? (IsCause table ·) := by
      rw [List.find?_flatMap]
      exact findSome?_congr fun c hc => ih c hc (h.child hc)
    rw [innermostInvalid?_eq, postorder_eq, List.find?_append, hchildren]
    split
    · next hn =>
      -- Where the node is no cause, one of its children is invalid, and its search finds one.
      by_cases hcause : n.IsCause table
      · rw [List.find?_cons_of_pos (by simpa using hcause)]
      · obtain ⟨c, hc, hinvalid⟩ : ∃ c ∈ n.children, table.get c.id = .invalid := by
          simpa [IsCause, hn] using hcause
        obtain ⟨m, hm, hm'⟩ := exists_isCause hinvalid
        have hfound : ((n.children.flatMap postorder).find? (IsCause table ·)).isSome := by
          rw [List.find?_isSome]
          exact ⟨m, List.mem_flatMap.2 ⟨c, hc, mem_postorder.2 hm⟩, by simpa using hm'⟩
        obtain ⟨k, hk⟩ := Option.isSome_iff_exists.1 hfound
        rw [hk, Option.some_or, Option.some_or]
    · next hn =>
      have hnone : ∀ m ∈ n.preorder, ¬ m.IsCause table := fun m hm hcause =>
        hn (h.invalid_iff.2 ⟨m, hm, hcause.1⟩)
      rw [← List.find?_append, ← postorder_eq, eq_comm, List.find?_eq_none]
      exact fun m hm => by simpa using hnone m (mem_postorder.1 hm)

theorem upward_of_check {tree : Node} {hints : Hints} (hcheck : tree.check hints = .ok table)
    (hnodup : (tree.preorder.map id).Nodup) : tree.Upward table := by
  intro m hm c hc hinvalid
  have htype := typeOf_of_check hcheck hnodup
  have hchild := htype c (preorder_subset hm (mem_preorder_of_child hc (mem_preorder_self c)))
  exact Typing.invalid_of_child (htype m hm) hc (hinvalid ▸ hchild)

/-! ## Type errors -/

/-- What accepting a typed tree ends with. -/
theorem accept_eq (tree : Node) (table : TypeTable) :
    tree.accept table =
      if table.get tree.id = .bool ∨ table.get tree.id = .any then .ok (table.get tree.id)
      else .error ⟨table.get tree.id, (tree.innermostInvalid? table).map print⟩ := by
  rw [accept]
  cases table.get tree.id <;> simp

/-- **Type errors point at a cause.** Every parsed tree is checked, and its root is invalid if and
only if some node is. The tree is rejected if and only if the type of its root is neither `bool`
nor `any`. The error has no culprit if the root is not invalid, and otherwise names the first node
in post-order that is invalid and has no invalid child. -/
theorem accept_culprit (text : String) (hints : Hints) (tree : Node)
    (hparse : parse text = .ok tree) :
    ∃ table, tree.check hints = .ok table ∧
      (table.get tree.id = .invalid ↔ ∃ m ∈ tree.preorder, table.get m.id = .invalid) ∧
      ((∃ e, tree.accept table = .error e) ↔
        table.get tree.id ≠ .bool ∧ table.get tree.id ≠ .any) ∧
      ∀ e, tree.accept table = .error e → e.found = table.get tree.id ∧
        (table.get tree.id ≠ .invalid → e.culprit = none) ∧
        (table.get tree.id = .invalid → ∃ m,
          tree.postorder.find? (IsCause table ·) = some m ∧ e.culprit = some m.print) := by
  have haccepted := parse_accepted hparse
  obtain ⟨table, hcheck⟩ := haccepted.formed.check_ok hints
  have hupward := upward_of_check hcheck haccepted.nodup
  refine ⟨table, hcheck, hupward.invalid_iff, ?_, fun e he => ?_⟩
  · rw [accept_eq, ← not_or]
    split <;> simp [*]
  · rw [accept_eq] at he
    split at he
    · cases he
    cases he
    refine ⟨rfl, fun hn => ?_, fun hn => ?_⟩
    · rw [innermostInvalid?_eq, if_neg hn]
      rfl
    · obtain ⟨m, hm⟩ : ∃ m, tree.innermostInvalid? table = some m := by
        rw [innermostInvalid?_eq, if_pos hn]
        cases tree.children.findSome? (innermostInvalid? table) <;> exact ⟨_, rfl⟩
      exact ⟨m, hupward.innermostInvalid?_eq_find?.symm.trans hm, by rw [hm]; rfl⟩

/-- Both operands of a comparison are causes, and the error names the left one. -/
theorem accept_culprit_left : ∃ tree table e,
    parse "(1 + 'a') = ('b' * 2)" = .ok tree ∧ tree.check Hints.empty = .ok table ∧
      tree.accept table = .error e ∧ e.culprit = some "(1 + 'a')" := by
  let one : Token := ⟨.int, "1", 1⟩
  let plus : Token := ⟨.plus, "+", 3⟩
  let a : Token := ⟨.string, "'a'", 5⟩
  let equal : Token := ⟨.equal, "=", 10⟩
  let b : Token := ⟨.string, "'b'", 13⟩
  let times : Token := ⟨.times, "*", 17⟩
  let two : Token := ⟨.int, "2", 19⟩
  have hleft : Spells [.rule .simple]
      [⟨.openParen, "(", 0⟩, one, plus, a, ⟨.closeParen, ")", 8⟩]
      [.binary 0 plus (.leaf 0 one) (.leaf 0 a)] :=
    .interior rfl rfl (@Spells.operator [one] [a] plus _ _ (.arith .add) rfl rfl
      (.literal rfl) (.literal rfl))
  have hright : Spells [.rule .simple]
      [⟨.openParen, "(", 12⟩, b, times, two, ⟨.closeParen, ")", 20⟩]
      [.binary 0 times (.leaf 0 b) (.leaf 0 two)] :=
    .interior rfl rfl (@Spells.operator [b] [two] times _ _ (.arith .multiply) rfl rfl
      (.literal rfl) (.literal rfl))
  have hspells := @Spells.operator _ _ equal _ _ (.compare .equal) rfl rfl hleft hright
  have htokens : tokenize "(1 + 'a') = ('b' * 2)" = .ok
      [⟨.openParen, "(", 0⟩, one, plus, a, ⟨.closeParen, ")", 8⟩, equal,
        ⟨.openParen, "(", 12⟩, b, times, two, ⟨.closeParen, ")", 20⟩] := by
    decide +kernel
  let tree : Node := .binary 0 equal (.binary 1 plus (.leaf 2 one) (.leaf 3 a))
    (.binary 4 times (.leaf 5 b) (.leaf 6 two))
  have hparse : parse "(1 + 'a') = ('b' * 2)" = .ok tree := by
    rw [parse, htokens]
    exact Parser.parse_of_spells (by decide) hspells
  obtain ⟨table, hcheck, -, hfails, herror⟩ := accept_culprit _ Hints.empty _ hparse
  have htype {m : Node} {type : ExprType} (hm : m ∈ tree.preorder)
      (h : Typing.typeOf Hints.empty m = .ok type) : table.get m.id = type :=
    Except.ok.inj ((typeOf_of_check hcheck (by decide) m hm).symm.trans h)
  have hroot : table.get tree.id = .invalid := htype (mem_preorder_self tree) rfl
  have hsum : table.get 1 = .invalid :=
    htype (m := .binary 1 plus (.leaf 2 one) (.leaf 3 a)) (by decide) rfl
  have hone : table.get 2 = .arith := htype (m := .leaf 2 one) (by decide) rfl
  have ha : table.get 3 = .string := htype (m := .leaf 3 a) (by decide) rfl
  obtain ⟨e, he⟩ := hfails.2 ⟨by rw [hroot]; decide, by rw [hroot]; decide⟩
  obtain ⟨-, -, hculprit⟩ := herror e he
  obtain ⟨m, hfind, hm⟩ := hculprit hroot
  simp [tree, postorder, IsCause, children, Node.id, hone, ha, hsum] at hfind
  subst hfind
  exact ⟨tree, table, e, hparse, hcheck, he, hm⟩

end Node

end MessageSelector
