import MessageSelector.Proofs.Subtrees
import MessageSelector.Proofs.Tables

/-!
# Types

The type of a node is determined by the tree below it and the hints (`typeOf`, `HasType`). The table
that the checker fills has this type for every node of a tree whose identifiers differ
(`typeOf_of_check`): visiting a node adds no entry but its own to those of its children (`Assigns`).
-/

namespace MessageSelector

namespace Typing

/-- The type of a tree. -/
def typeOf (hints : Hints) : Node → Except Defect ExprType
  | .leaf id token => nodeOrInvalid hints (.leaf id token) []
  | .list id items => nodeOrInvalid hints (.list id items) []
  | .binary id op left right => do
    let leftType ← typeOf hints left
    let rightType ← typeOf hints right
    nodeOrInvalid hints (.binary id op left right) [leftType, rightType]
  | .ternary id op first second third => do
    let firstType ← typeOf hints first
    let secondType ← typeOf hints second
    let thirdType ← typeOf hints third
    nodeOrInvalid hints (.ternary id op first second third) [firstType, secondType, thirdType]
  | .prefixOp id op operand => do
    let type ← typeOf hints operand
    nodeOrInvalid hints (.prefixOp id op operand) [type]
  | .postfixOp id op operand => do
    let type ← typeOf hints operand
    nodeOrInvalid hints (.postfixOp id op operand) [type]
  | .pattern id text => do
    let type ← typeOf hints text
    nodeOrInvalid hints (.pattern id text) [type]
  | .escaped id text escape => do
    let textType ← typeOf hints text
    let escapeType ← typeOf hints escape
    nodeOrInvalid hints (.escaped id text escape) [textType, escapeType]

variable {hints : Hints}

/-! ## The table has the types -/

/-- The table has changed at identifiers of the nodes only, and where they differ it has the types
of the nodes. -/
structure Assigns (hints : Hints) (before after : TypeTable) (nodes : List Node) : Prop where
  frame : ∀ i, i ∉ nodes.map Node.id → after.get i = before.get i
  entry : (nodes.map Node.id).Nodup → ∀ m ∈ nodes, typeOf hints m = .ok (after.get m.id)

theorem assigns_nil (table : TypeTable) : Assigns hints table table [] :=
  ⟨fun _ _ => rfl, fun _ _ hm => absurd hm List.not_mem_nil⟩

theorem Assigns.append {before between after : TypeTable} {xs ys : List Node}
    (hx : Assigns hints before between xs) (hy : Assigns hints between after ys) :
    Assigns hints before after (xs ++ ys) := by
  exact ⟨Node.frame_append hx.frame hy.frame,
    @Node.entry_append _ between.get after.get xs ys (fun m type => typeOf hints m = .ok type)
      hx.entry hy.frame hy.entry⟩

theorem Assigns.settle {before between after : TypeTable} {n : Node} {types : List ExprType}
    {type : ExprType} {nodes : List Node} (h : Assigns hints before between nodes)
    (htype : typeOf hints n = nodeOrInvalid hints n types)
    (hsettle : settle hints n types between = .ok (type, after)) :
    typeOf hints n = .ok type ∧ Assigns hints before after (n :: nodes) := by
  rw [Typing.settle, ← htype] at hsettle
  split at hsettle
  · next found hfound =>
    cases hsettle
    have hget (i : Nat) :
        (between.set n.id type).get i = if n.id = i then type else between.get i := by
      simp [TypeTable.get, TypeTable.set, Std.HashMap.getD_insert]
    refine ⟨hfound, fun i hi => ?_, fun hnodup m hm => ?_⟩
    · rw [List.map_cons, List.mem_cons, not_or] at hi
      rw [hget, if_neg (Ne.symm hi.1), h.frame i hi.2]
    · rw [List.map_cons, List.nodup_cons] at hnodup
      rcases List.mem_cons.1 hm with rfl | hm
      · rw [hget, if_pos rfl, hfound]
      · have hne : n.id ≠ m.id := fun heq => hnodup.1 (heq ▸ List.mem_map_of_mem hm)
        rw [hget, if_neg hne, h.entry hnodup.2 m hm]
  · cases hsettle

/-- Visiting a tree finds its type and adds the types of its nodes to the table. -/
theorem assigns_of_visit {n : Node} {before after : TypeTable} {type : ExprType}
    (h : visit hints before n = .ok (type, after)) :
    typeOf hints n = .ok type ∧ Assigns hints before after n.preorder := by
  induction n generalizing before after type with
  | leaf id token | list id items => exact (assigns_nil before).settle rfl h
  | binary id op left right ihl ihr | escaped id left right ihl ihr =>
    simp only [visit, bind_eq_ok] at h
    obtain ⟨⟨l, table₁⟩, hl, ⟨r, table₂⟩, hr, hsettle⟩ := h
    obtain ⟨hleft, hassigns₁⟩ := ihl hl
    obtain ⟨hright, hassigns₂⟩ := ihr hr
    exact (hassigns₁.append hassigns₂).settle (by rw [typeOf, hleft, hright]; rfl) hsettle
  | ternary id op first second third ih₁ ih₂ ih₃ =>
    simp only [visit, bind_eq_ok] at h
    obtain ⟨⟨t₁, table₁⟩, h₁, ⟨t₂, table₂⟩, h₂, ⟨t₃, table₃⟩, h₃, hsettle⟩ := h
    obtain ⟨hfirst, hassigns₁⟩ := ih₁ h₁
    obtain ⟨hsecond, hassigns₂⟩ := ih₂ h₂
    obtain ⟨hthird, hassigns₃⟩ := ih₃ h₃
    exact ((hassigns₁.append hassigns₂).append hassigns₃).settle
      (by rw [typeOf, hfirst, hsecond, hthird]; rfl) hsettle
  | prefixOp id op operand ih | postfixOp id op operand ih | pattern id operand ih =>
    simp only [visit, bind_eq_ok] at h
    obtain ⟨⟨t, table₁⟩, h₁, hsettle⟩ := h
    obtain ⟨hoperand, hassigns⟩ := ih h₁
    exact hassigns.settle (by rw [typeOf, hoperand]; rfl) hsettle

/-! ## Trees without type errors -/

/-- The tree has the type, which is no type error. -/
structure HasType (hints : Hints) (n : Node) (type : ExprType) : Prop where
  typeOf_eq : typeOf hints n = .ok type
  valid : type ≠ .invalid

/-- No child of a node without a type error has one. -/
theorem nodeOrInvalid_valid {n : Node} {types : List ExprType} {type : ExprType}
    (hvalid : type ≠ .invalid) :
    nodeOrInvalid hints n types = .ok type ↔ .invalid ∉ types ∧ node hints n types = .ok type := by
  rw [nodeOrInvalid]
  split
  · next h =>
    have hmem : ExprType.invalid ∈ types := by simpa using h
    exact ⟨fun heq => absurd (Except.ok.inj heq).symm hvalid, fun heq => absurd hmem heq.1⟩
  · next h => exact ⟨fun heq => ⟨by simpa using h, heq⟩, fun heq => heq.2⟩

theorem hasType_leaf {id : Nat} {token : Token} {type : ExprType} :
    HasType hints (.leaf id token) type ↔ leaf hints token = .ok type ∧ type ≠ .invalid := by
  constructor
  · rintro ⟨h, hvalid⟩
    exact ⟨((nodeOrInvalid_valid hvalid).1 h).2, hvalid⟩
  · rintro ⟨h, hvalid⟩
    exact ⟨(nodeOrInvalid_valid hvalid).2 ⟨List.not_mem_nil, h⟩, hvalid⟩

theorem hasType_list {id : Nat} {items : List String} {type : ExprType} :
    HasType hints (.list id items) type ↔ type = .list := by
  constructor
  · rintro ⟨h, hvalid⟩
    exact (Except.ok.inj ((nodeOrInvalid_valid hvalid).1 h).2).symm
  · rintro rfl
    exact ⟨rfl, by decide⟩

theorem hasType_binary {id : Nat} {op : Token} {o : BinaryOperator} {left right : Node}
    {type : ExprType} (ho : op.kind.binary? = some o) :
    HasType hints (.binary id op left right) type ↔
      ∃ l r, HasType hints left l ∧ HasType hints right r ∧ binary o l r = type ∧
        type ≠ .invalid := by
  constructor
  · rintro ⟨h, hvalid⟩
    simp only [typeOf, bind_eq_ok, nodeOrInvalid_valid hvalid, node_binary ho] at h
    obtain ⟨l, hl, r, hr, hmem, heq⟩ := h
    simp only [List.mem_cons, List.not_mem_nil, or_false, not_or] at hmem
    exact ⟨l, r, ⟨hl, Ne.symm hmem.1⟩, ⟨hr, Ne.symm hmem.2⟩, Except.ok.inj heq, hvalid⟩
  · rintro ⟨l, r, ⟨hl, hlvalid⟩, ⟨hr, hrvalid⟩, rfl, hvalid⟩
    refine ⟨?_, hvalid⟩
    simp only [typeOf, bind_eq_ok, nodeOrInvalid_valid hvalid, node_binary ho]
    exact ⟨l, hl, r, hr, by simp [Ne.symm hlvalid, Ne.symm hrvalid]⟩

theorem hasType_ternary {id : Nat} {op : Token} {negated : Bool} {first second third : Node}
    {type : ExprType} (ho : op.kind.ternaryNegated? = some negated) :
    HasType hints (.ternary id op first second third) type ↔
      ∃ t₁ t₂ t₃, HasType hints first t₁ ∧ HasType hints second t₂ ∧ HasType hints third t₃ ∧
        require ([t₁, t₂, t₃].all (·.isCompatible .arith)) .bool = type ∧ type ≠ .invalid := by
  constructor
  · rintro ⟨h, hvalid⟩
    simp only [typeOf, bind_eq_ok, nodeOrInvalid_valid hvalid, node, ho] at h
    obtain ⟨t₁, h₁, t₂, h₂, t₃, h₃, hmem, heq⟩ := h
    simp only [List.mem_cons, List.not_mem_nil, or_false, not_or] at hmem
    exact ⟨t₁, t₂, t₃, ⟨h₁, Ne.symm hmem.1⟩, ⟨h₂, Ne.symm hmem.2.1⟩, ⟨h₃, Ne.symm hmem.2.2⟩,
      Except.ok.inj heq, hvalid⟩
  · rintro ⟨t₁, t₂, t₃, ⟨h₁, hvalid₁⟩, ⟨h₂, hvalid₂⟩, ⟨h₃, hvalid₃⟩, rfl, hvalid⟩
    refine ⟨?_, hvalid⟩
    simp only [typeOf, bind_eq_ok, nodeOrInvalid_valid hvalid, node, ho]
    exact ⟨t₁, h₁, t₂, h₂, t₃, h₃, by simp [Ne.symm hvalid₁, Ne.symm hvalid₂, Ne.symm hvalid₃],
      rfl⟩

theorem hasType_prefixOp {id : Nat} {op : Token} {o : PrefixOperator} {operand : Node}
    {type : ExprType} (ho : op.kind.prefix? = some o) :
    HasType hints (.prefixOp id op operand) type ↔
      ∃ t, HasType hints operand t ∧ prefixed o t = type ∧ type ≠ .invalid := by
  constructor
  · rintro ⟨h, hvalid⟩
    simp only [typeOf, bind_eq_ok, nodeOrInvalid_valid hvalid, node_prefixOp ho] at h
    obtain ⟨t, ht, hmem, heq⟩ := h
    exact ⟨t, ⟨ht, fun hinvalid => hmem (hinvalid ▸ List.mem_singleton_self _)⟩,
      Except.ok.inj heq, hvalid⟩
  · rintro ⟨t, ⟨ht, htvalid⟩, rfl, hvalid⟩
    refine ⟨?_, hvalid⟩
    simp only [typeOf, bind_eq_ok, nodeOrInvalid_valid hvalid, node_prefixOp ho]
    exact ⟨t, ht, by simp [Ne.symm htvalid]⟩

theorem hasType_postfixOp {id : Nat} {op : Token} {negated : Bool} {operand : Node}
    {type : ExprType} (ho : op.kind.postfixNegated? = some negated) :
    HasType hints (.postfixOp id op operand) type ↔
      (∃ t, HasType hints operand t) ∧ type = .bool := by
  constructor
  · rintro ⟨h, hvalid⟩
    simp only [typeOf, bind_eq_ok, nodeOrInvalid_valid hvalid, node, ho] at h
    obtain ⟨t, ht, hmem, heq⟩ := h
    exact ⟨⟨t, ht, fun hinvalid => hmem (hinvalid ▸ List.mem_singleton_self _)⟩,
      (Except.ok.inj heq).symm⟩
  · rintro ⟨⟨t, ht, htvalid⟩, rfl⟩
    have hbool : ExprType.bool ≠ .invalid := by decide
    refine ⟨?_, hbool⟩
    simp only [typeOf, bind_eq_ok, nodeOrInvalid_valid hbool, node, ho]
    exact ⟨t, ht, by simp [Ne.symm htvalid], trivial⟩

/-- The types that a condition lets through. -/
theorem require_valid {holds : Bool} {type : ExprType} (h : require holds type ≠ .invalid) :
    holds = true ∧ require holds type = type := by
  cases holds with
  | true => exact ⟨rfl, rfl⟩
  | false => exact absurd rfl h

theorem typeOf_stringLeaf {id : Nat} {token : Token} (hk : token.kind = .string) :
    typeOf hints (.leaf id token) = .ok .string := by
  simp [typeOf, nodeOrInvalid, node, leaf, hk]

/-- A pattern has pieces if its escape string is one character. -/
theorem compile?_escape {text escape : String} :
    (∃ pieces, Like.compile? text (some escape) = some pieces) ↔ escape.length = 1 := by
  rw [Like.compile?, Like.escapeChar?, ← String.length_toList]
  rcases escape.toList with _ | ⟨c, _ | ⟨d, rest⟩⟩ <;> simp

/-- The escape string of a pattern without a type error is one character. -/
theorem hasType_pattern {ok : Token → Prop} {p : Node} (h : p.PatternFormed ok)
    {type : ExprType} : HasType hints p type ↔ type = .string ∧
      ∃ pieces, p.pieces? = some (some pieces) := by
  cases h with
  | @pattern id i text hk _ =>
    have hpieces : (Node.pattern id (.leaf i text)).pieces? =
        some (some (Like.pieces none (Text.unquote text.text).toList)) := by
      rw [Node.pieces?, Node.string?, Token.string?_of_kind hk]
      rfl
    have htype : typeOf hints (.pattern id (.leaf i text)) = .ok .string := by
      rw [typeOf, typeOf_stringLeaf hk]
      simp [nodeOrInvalid, node, isStringLeaf, hk, require, bind, Except.bind]
    constructor
    · rintro ⟨h, -⟩
      exact ⟨(Except.ok.inj (htype.symm.trans h)).symm, _, hpieces⟩
    · rintro ⟨rfl, -⟩
      exact ⟨htype, by decide⟩
  | @escaped id i j text escape hk _ hk' _ =>
    have hpieces : (Node.escaped id (.leaf i text) (.leaf j escape)).pieces? =
        some (Like.compile? (Text.unquote text.text) (some (Text.unquote escape.text))) := by
      rw [Node.pieces?, Node.string?, Node.string?, Token.string?_of_kind hk,
        Token.string?_of_kind hk', Option.bind_some, Option.map_some]
    have htype : typeOf hints (.escaped id (.leaf i text) (.leaf j escape)) =
        .ok (require (isEscapeLeaf (.leaf j escape)) .string) := by
      rw [typeOf, typeOf_stringLeaf hk, typeOf_stringLeaf hk']
      simp [nodeOrInvalid, node, isStringLeaf, hk, bind, Except.bind]
    have hone : isEscapeLeaf (.leaf j escape) = true ↔
        ∃ pieces, (Node.escaped id (.leaf i text) (.leaf j escape)).pieces? =
          some (some pieces) := by
      simp only [hpieces, isEscapeLeaf, Token.string?_of_kind hk', Option.some.injEq,
        compile?_escape, Option.map_some, decide_eq_true_eq]
    constructor
    · rintro ⟨h, hvalid⟩
      rw [htype] at h
      cases h
      obtain ⟨hholds, htype⟩ := require_valid hvalid
      exact ⟨htype, hone.1 hholds⟩
    · rintro ⟨rfl, hpieces⟩
      exact ⟨by rw [htype, hone.2 hpieces]; rfl, by decide⟩

end Typing

namespace Node

/-- The table of a tree has the types of its nodes, if their identifiers differ. -/
theorem typeOf_of_check {tree : Node} {hints : Hints} {table : TypeTable}
    (hcheck : tree.check hints = .ok table) (hnodup : (tree.preorder.map id).Nodup) :
    ∀ m ∈ tree.preorder, Typing.typeOf hints m = .ok (table.get m.id) := by
  obtain ⟨type, hvisit⟩ := check_eq_ok.1 hcheck
  exact (Typing.assigns_of_visit hvisit).2.entry hnodup

end Node

end MessageSelector
