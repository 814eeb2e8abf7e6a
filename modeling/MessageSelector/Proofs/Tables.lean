import Std.Data.HashMap.Lemmas
import MessageSelector.Evaluation
import MessageSelector.Proofs.Formed

/-!
# Side tables

The passes over a tree fill tables keyed by the identifiers of its nodes: the checker one of types,
the evaluator one of patterns. A formed tree fills both (`Formed.check_ok`, `collect_ok`). A node
without a type error has none below it either (`get_ne_invalid`), and where the identifiers of a
tree differ, every pattern is found under the identifier of its node (`Collects`,
`collects_of_collect`).
-/

namespace MessageSelector

/-- A computation of two steps succeeds if both do. -/
theorem bind_eq_ok {ε α β : Type} {x : Except ε α} {f : α → Except ε β} {b : β} :
    (x >>= f) = .ok b ↔ ∃ a, x = .ok a ∧ f a = .ok b := by
  cases x <;> simp [bind, Except.bind]

/-! ## Entries of nodes -/

namespace Node

variable {α : Type} {before between after : Nat → α} {xs ys : List Node}

/-- Filling a table for some nodes and then for others changes it at their identifiers only. -/
theorem frame_append (hx : ∀ i, i ∉ xs.map Node.id → between i = before i)
    (hy : ∀ i, i ∉ ys.map Node.id → after i = between i) (i : Nat)
    (hi : i ∉ (xs ++ ys).map Node.id) : after i = before i := by
  rw [List.map_append, List.mem_append, not_or] at hi
  rw [hy i hi.2, hx i hi.1]

/-- What the entries of some nodes hold is still there when the table has been filled for others. -/
theorem entry_append {holds : Node → α → Prop}
    (hx : (xs.map Node.id).Nodup → ∀ m ∈ xs, holds m (between m.id))
    (hframe : ∀ i, i ∉ ys.map Node.id → after i = between i)
    (hy : (ys.map Node.id).Nodup → ∀ m ∈ ys, holds m (after m.id))
    (hnodup : ((xs ++ ys).map Node.id).Nodup) (m : Node) (hm : m ∈ xs ++ ys) :
    holds m (after m.id) := by
  rw [List.map_append, List.nodup_append] at hnodup
  obtain ⟨hndx, hndy, hdisjoint⟩ := hnodup
  rcases List.mem_append.1 hm with hm | hm
  · have hout : m.id ∉ ys.map Node.id := fun hin =>
      hdisjoint m.id (List.mem_map_of_mem hm) m.id hin rfl
    rw [hframe _ hout]
    exact hx hndx m hm
  · exact hy hndy m hm

end Node

/-! ## Types -/

namespace Typing

variable {hints : Hints} {ok : Token → Prop}

theorem settle_ok {n : Node} {types : List ExprType} {table : TypeTable} {type : ExprType}
    (h : node hints n types = .ok type) : ∃ r, settle hints n types table = .ok r := by
  rw [settle, nodeOrInvalid]
  cases types.contains .invalid
  · rw [h]
    exact ⟨_, rfl⟩
  · exact ⟨_, rfl⟩

/-- What settling a node says: its type is in the table, no other entry has changed, and a node with
an invalid child is invalid. -/
theorem settle_eq {n : Node} {types : List ExprType} {table table' : TypeTable} {type : ExprType}
    (h : settle hints n types table = .ok (type, table')) :
    table' = table.set n.id type ∧ (.invalid ∈ types → type = .invalid) := by
  rw [settle] at h
  split at h
  · next found hfound =>
    cases h
    refine ⟨rfl, fun hmem => ?_⟩
    rw [nodeOrInvalid, if_pos (by simpa using hmem)] at hfound
    exact (Except.ok.inj hfound).symm
  · cases h

theorem node_binary {id : Nat} {op : Token} {o : BinaryOperator} {left right : Node}
    (ho : op.kind.binary? = some o) (l r : ExprType) :
    node hints (.binary id op left right) [l, r] = .ok (binary o l r) := by
  simp only [node, ho]

theorem node_prefixOp {id : Nat} {op : Token} {o : PrefixOperator} {operand : Node}
    (ho : op.kind.prefix? = some o) (type : ExprType) :
    node hints (.prefixOp id op operand) [type] = .ok (prefixed o type) := by
  simp only [node, ho]

theorem leaf_ok {t : Token} (h : t.kind.isOperand) : ∃ type, leaf hints t = .ok type := by
  rw [leaf]
  cases hk : t.kind <;> rw [hk] at h <;> first | exact ⟨_, rfl⟩ | cases h

theorem visit_leaf_ok {id : Nat} {t : Token} (h : t.kind.isOperand) (table : TypeTable) :
    ∃ r, visit hints table (.leaf id t) = .ok r := by
  obtain ⟨type, htype⟩ := @leaf_ok hints t h
  exact settle_ok htype

theorem visit_pattern_ok {p : Node} (h : p.PatternFormed ok) (table : TypeTable) :
    ∃ r, visit hints table p = .ok r := by
  cases h with
  | @pattern id i text hk _ =>
    obtain ⟨r, hr⟩ := @visit_leaf_ok hints i text (by rw [hk]; rfl) table
    rw [visit, hr]
    exact settle_ok rfl
  | @escaped id i j text escape hk _ hk' _ =>
    obtain ⟨r, hr⟩ := @visit_leaf_ok hints i text (by rw [hk]; rfl) table
    obtain ⟨r', hr'⟩ := @visit_leaf_ok hints j escape (by rw [hk']; rfl) r.2
    rw [visit, hr]
    simp only [bind, Except.bind, hr']
    exact settle_ok rfl

/-- The checker has a type for every node of a formed tree. -/
theorem visit_ok {n : Node} (h : n.Formed ok) (table : TypeTable) :
    ∃ r, visit hints table n = .ok r := by
  induction h generalizing table with
  | leaf hk _ => exact visit_leaf_ok hk table
  | @binary id op o left right ho _ _ _ ihl ihr =>
    obtain ⟨r, hr⟩ := ihl table
    obtain ⟨r', hr'⟩ := ihr r.2
    rw [visit, hr]
    simp only [bind, Except.bind, hr']
    exact settle_ok (node_binary ho _ _)
  | @like id i op x negated p ho hk _ hp =>
    obtain ⟨r, hr⟩ := @visit_leaf_ok hints i x (by rw [hk]; rfl) table
    obtain ⟨r', hr'⟩ := @visit_pattern_ok hints ok p hp r.2
    rw [visit, hr]
    simp only [bind, Except.bind, hr']
    exact settle_ok (node_binary ho _ _)
  | @isIn id i j op x negated items ho hk _ _ =>
    obtain ⟨r, hr⟩ := @visit_leaf_ok hints i x (by rw [hk]; rfl) table
    rw [visit, hr]
    exact settle_ok (node_binary ho _ _)
  | @ternary id op negated first second third ho _ _ _ ih₁ ih₂ ih₃ =>
    obtain ⟨r, hr⟩ := ih₁ table
    obtain ⟨r', hr'⟩ := ih₂ r.2
    obtain ⟨r'', hr''⟩ := ih₃ r'.2
    rw [visit, hr]
    simp only [bind, Except.bind, hr', hr'']
    exact settle_ok (by rw [node, ho])
  | @prefixOp id op o operand ho _ ih =>
    obtain ⟨r, hr⟩ := ih table
    rw [visit, hr]
    exact settle_ok (node_prefixOp ho _)
  | @postfixOp id i op x negated ho hk _ =>
    obtain ⟨r, hr⟩ := @visit_leaf_ok hints i x (by rw [hk]; rfl) table
    rw [visit, hr]
    exact settle_ok (by rw [node, ho])

/-- What visiting a tree says: the type of the root is in the table, and unless it is invalid no
entry has become so. -/
theorem visit_eq {n : Node} {table table' : TypeTable} {type : ExprType}
    (h : visit hints table n = .ok (type, table')) :
    table'.get n.id = type ∧
      (type ≠ .invalid → ∀ i, table'.get i = .invalid → table.get i = .invalid) := by
  -- The last step is to settle the node, with the types of its children.
  have last {n : Node} {types : List ExprType} {before table' : TypeTable} {type : ExprType}
      (h : settle hints n types before = .ok (type, table')) :
      table'.get n.id = type ∧ (type ≠ .invalid → .invalid ∉ types ∧
        ∀ i, table'.get i = .invalid → before.get i = .invalid) := by
    obtain ⟨rfl, hinvalid⟩ := settle_eq h
    refine ⟨by simp [TypeTable.get, TypeTable.set], fun hne => ⟨fun hm => hne (hinvalid hm), ?_⟩⟩
    intro i hi
    simp only [TypeTable.get, TypeTable.set, Std.HashMap.getD_insert] at hi ⊢
    split at hi
    · exact absurd hi hne
    · exact hi
  induction n generalizing table table' type with
  | leaf id token | list id items =>
    rw [visit] at h
    exact ⟨(last h).1, fun hne => ((last h).2 hne).2⟩
  | binary id op left right ihl ihr =>
    simp only [visit, bind_eq_ok] at h
    obtain ⟨⟨l, table₁⟩, hl, ⟨r, table₂⟩, hr, hsettle⟩ := h
    refine ⟨(last hsettle).1, fun hne i hi => ?_⟩
    obtain ⟨hvalid, hlast⟩ := (last hsettle).2 hne
    simp only [List.mem_cons, not_or] at hvalid
    exact (ihl hl).2 (Ne.symm hvalid.1) i ((ihr hr).2 (Ne.symm hvalid.2.1) i (hlast i hi))
  | ternary id op first second third ih₁ ih₂ ih₃ =>
    simp only [visit, bind_eq_ok] at h
    obtain ⟨⟨t₁, table₁⟩, h₁, ⟨t₂, table₂⟩, h₂, ⟨t₃, table₃⟩, h₃, hsettle⟩ := h
    refine ⟨(last hsettle).1, fun hne i hi => ?_⟩
    obtain ⟨hvalid, hlast⟩ := (last hsettle).2 hne
    simp only [List.mem_cons, not_or] at hvalid
    exact (ih₁ h₁).2 (Ne.symm hvalid.1) i ((ih₂ h₂).2 (Ne.symm hvalid.2.1) i
      ((ih₃ h₃).2 (Ne.symm hvalid.2.2.1) i (hlast i hi)))
  | prefixOp id op operand ih | postfixOp id op operand ih | pattern id operand ih =>
    simp only [visit, bind_eq_ok] at h
    obtain ⟨⟨t, table₁⟩, h₁, hsettle⟩ := h
    refine ⟨(last hsettle).1, fun hne i hi => ?_⟩
    obtain ⟨hvalid, hlast⟩ := (last hsettle).2 hne
    simp only [List.mem_cons, not_or] at hvalid
    exact (ih h₁).2 (Ne.symm hvalid.1) i (hlast i hi)
  | escaped id text escape iht ihe =>
    simp only [visit, bind_eq_ok] at h
    obtain ⟨⟨l, table₁⟩, hl, ⟨r, table₂⟩, hr, hsettle⟩ := h
    refine ⟨(last hsettle).1, fun hne i hi => ?_⟩
    obtain ⟨hvalid, hlast⟩ := (last hsettle).2 hne
    simp only [List.mem_cons, not_or] at hvalid
    exact (iht hl).2 (Ne.symm hvalid.1) i ((ihe hr).2 (Ne.symm hvalid.2.1) i (hlast i hi))

end Typing

namespace Node

/-- Checking a tree is visiting it with an empty table. -/
theorem check_eq_ok {tree : Node} {hints : Hints} {table : TypeTable} :
    tree.check hints = .ok table ↔ ∃ type, Typing.visit hints {} tree = .ok (type, table) := by
  rw [check]
  cases Typing.visit hints {} tree <;> simp [Except.map, Prod.ext_iff]

theorem Formed.check_ok {ok : Token → Prop} {tree : Node} (h : tree.Formed ok) (hints : Hints) :
    ∃ table, tree.check hints = .ok table := by
  obtain ⟨r, hr⟩ := @Typing.visit_ok hints ok tree h {}
  exact ⟨r.2, check_eq_ok.2 ⟨r.1, hr⟩⟩

/-- No node of an accepted tree has a type error. -/
theorem get_ne_invalid {tree : Node} {hints : Hints} {table : TypeTable} {type : ExprType}
    (hcheck : tree.check hints = .ok table) (haccept : tree.accept table = .ok type) (i : Nat) :
    table.get i ≠ .invalid := by
  obtain ⟨found, hvisit⟩ := check_eq_ok.1 hcheck
  obtain ⟨hroot, hkeep⟩ := Typing.visit_eq hvisit
  have hne : found ≠ .invalid := by
    intro hinvalid
    rw [accept, hroot, hinvalid] at haccept
    cases haccept
  intro hi
  have hempty := hkeep hne i hi
  simp [TypeTable.get] at hempty

end Node

/-! ## Patterns -/

/-- The pieces that a pattern node asks for: outer `none` for any other node, and for a pattern that
is no string literal. -/
def Node.pieces? : Node → Option (Option (List Like.Piece))
  | .pattern _ text => text.string?.map (Like.compile? · none)
  | .escaped _ text escape =>
    text.string?.bind fun s => escape.string?.map fun e => Like.compile? s (some e)
  | _ => none

namespace Evaluator

/-- The table has changed at identifiers of the nodes only, and where they differ it has the pieces
of every pattern among the nodes. -/
structure Collects (before after : Evaluator) (nodes : List Node) : Prop where
  frame : ∀ i, i ∉ nodes.map Node.id → after.patterns[i]? = before.patterns[i]?
  entry : (nodes.map Node.id).Nodup → ∀ m ∈ nodes, ∀ pieces, m.pieces? = some pieces →
    after.patterns[m.id]? = some pieces

theorem collects_nil (evaluator : Evaluator) : Collects evaluator evaluator [] :=
  ⟨fun _ _ => rfl, fun _ _ hm => absurd hm List.not_mem_nil⟩

theorem Collects.append {before between after : Evaluator} {xs ys : List Node}
    (hx : Collects before between xs) (hy : Collects between after ys) :
    Collects before after (xs ++ ys) := by
  let holds (m : Node) (entry : Option (Option (List Like.Piece))) : Prop :=
    ∀ pieces, m.pieces? = some pieces → entry = some pieces
  exact ⟨Node.frame_append hx.frame hy.frame,
    @Node.entry_append _ (between.patterns[·]?) (after.patterns[·]?) xs ys holds
      hx.entry hy.frame hy.entry⟩

/-- A node that is no pattern adds nothing. -/
theorem Collects.cons {before after : Evaluator} {n : Node} {nodes : List Node}
    (h : Collects before after nodes) (hn : n.pieces? = none) :
    Collects before after (n :: nodes) := by
  constructor
  · intro i hi
    exact h.frame i fun hin => hi (List.mem_cons_of_mem _ hin)
  · intro hnodup m hm pieces hpieces
    rcases List.mem_cons.1 hm with rfl | hm
    · rw [hn] at hpieces
      cases hpieces
    · exact h.entry (List.nodup_cons.1 hnodup).2 m hm pieces hpieces

/-- A pattern adds its pieces. -/
theorem Collects.cons_add {before after : Evaluator} {n : Node} {nodes : List Node}
    {pieces : Option (List Like.Piece)} (h : Collects (before.add n.id pieces) after nodes)
    (hn : n.pieces? = some pieces) : Collects before after (n :: nodes) := by
  constructor
  · intro i hi
    rw [List.map_cons, List.mem_cons, not_or] at hi
    rw [h.frame i hi.2]
    simp [add, Std.HashMap.getElem?_insert, Ne.symm hi.1]
  · intro hnodup m hm pieces' hpieces
    rw [List.map_cons, List.nodup_cons] at hnodup
    rcases List.mem_cons.1 hm with rfl | hm
    · rw [hn] at hpieces
      cases hpieces
      rw [h.frame _ hnodup.1]
      simp [add]
    · exact h.entry hnodup.2 m hm pieces' hpieces

theorem patternString_eq {n : Node} {s : String} (h : patternString n = .ok s) :
    n.string? = some s := by
  rw [patternString] at h
  split at h
  · next heq =>
    cases h
    exact heq
  · cases h

/-- Collecting the patterns of a tree adds the pieces of every pattern under its identifier. -/
theorem collects_of_collect {n : Node} {before after : Evaluator}
    (h : collect before n = .ok after) : Collects before after n.preorder := by
  induction n generalizing before after with
  | leaf | list =>
    cases h
    exact (collects_nil before).cons rfl
  | binary id op left right ihl ihr =>
    obtain ⟨between, hl, hr⟩ := bind_eq_ok.1 h
    exact ((ihl hl).append (ihr hr)).cons rfl
  | ternary id op first second third ih₁ ih₂ ih₃ =>
    simp only [collect, bind_eq_ok] at h
    obtain ⟨e₁, h₁, e₂, h₂, h₃⟩ := h
    exact (((ih₁ h₁).append (ih₂ h₂)).append (ih₃ h₃)).cons rfl
  | prefixOp id op operand ih | postfixOp id op operand ih => exact (ih h).cons rfl
  | pattern id text ih =>
    simp only [collect, bind_eq_ok] at h
    obtain ⟨s, hs, htext⟩ := h
    refine (ih htext).cons_add ?_
    rw [Node.pieces?, patternString_eq hs, Option.map_some]
  | escaped id text escape iht ihe =>
    simp only [collect, bind_eq_ok] at h
    obtain ⟨s, hs, e, he, between, htext, hescape⟩ := h
    refine ((iht htext).append (ihe hescape)).cons_add ?_
    rw [Node.pieces?, patternString_eq hs, patternString_eq he, Option.bind_some, Option.map_some]

theorem collect_pattern_ok {ok : Token → Prop} {p : Node} (h : p.PatternFormed ok)
    (evaluator : Evaluator) : ∃ after, collect evaluator p = .ok after := by
  have hstring {i : Nat} {t : Token} (hk : t.kind = .string) :
      patternString (.leaf i t) = .ok (Text.unquote t.text) := by
    rw [patternString, Node.string?, Token.string?_of_kind hk]
  cases h with
  | pattern hk _ => exact ⟨_, by rw [collect, hstring hk]; rfl⟩
  | escaped hk _ hk' _ => exact ⟨_, by rw [collect, hstring hk, hstring hk']; rfl⟩

theorem collect_ok {ok : Token → Prop} {n : Node} (h : n.Formed ok) (evaluator : Evaluator) :
    ∃ after, collect evaluator n = .ok after := by
  induction h generalizing evaluator with
  | leaf => exact ⟨evaluator, rfl⟩
  | binary _ _ _ _ ihl ihr =>
    obtain ⟨e₁, h₁⟩ := ihl evaluator
    obtain ⟨e₂, h₂⟩ := ihr e₁
    exact ⟨e₂, bind_eq_ok.2 ⟨e₁, h₁, h₂⟩⟩
  | like _ _ _ hp => exact collect_pattern_ok hp evaluator
  | isIn => exact ⟨evaluator, rfl⟩
  | ternary _ _ _ _ ih₁ ih₂ ih₃ =>
    obtain ⟨e₁, h₁⟩ := ih₁ evaluator
    obtain ⟨e₂, h₂⟩ := ih₂ e₁
    obtain ⟨e₃, h₃⟩ := ih₃ e₂
    exact ⟨e₃, bind_eq_ok.2 ⟨e₁, h₁, bind_eq_ok.2 ⟨e₂, h₂, h₃⟩⟩⟩
  | prefixOp _ _ ih => exact ih evaluator
  | postfixOp => exact ⟨evaluator, rfl⟩

end Evaluator

end MessageSelector
