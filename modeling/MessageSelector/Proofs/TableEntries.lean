import Mathlib.Data.List.Perm.Basic
import MessageSelector.Proofs.Likeness
import MessageSelector.Proofs.Numbering
import MessageSelector.Proofs.Types

/-!
# The entries of side tables

A numbered tree has as many identifiers as nodes, from zero up in pre-order. The table of types has
one entry for each of them, and the entry of a node is the type that the checker finds for the
subtree alone, under whatever identifiers (`check_subtree`). The table of patterns has the pieces of
every pattern under the identifier of its node (`number_tables`).
-/

namespace MessageSelector

namespace Typing

variable {hints : Hints}

/-! ## Identifiers do not matter -/

theorem isStringLeaf_numberFrom (n : Node) (next : Nat) :
    isStringLeaf (n.numberFrom next).1 = isStringLeaf n := by
  cases n <;> rfl

theorem isEscapeLeaf_numberFrom (n : Node) (next : Nat) :
    isEscapeLeaf (n.numberFrom next).1 = isEscapeLeaf n := by
  cases n <;> rfl

/-- A tree keeps its type when it is numbered. -/
theorem typeOf_numberFrom (n : Node) (next : Nat) :
    typeOf hints (n.numberFrom next).1 = typeOf hints n := by
  induction n generalizing next with
  | leaf | list => rfl
  | binary id op left right ihl ihr =>
    simp only [Node.numberFrom, typeOf, ihl, ihr]
    rfl
  | ternary id op first second third ih₁ ih₂ ih₃ =>
    simp only [Node.numberFrom, typeOf, ih₁, ih₂, ih₃]
    rfl
  | prefixOp id op operand ih | postfixOp id op operand ih =>
    simp only [Node.numberFrom, typeOf, ih]
    rfl
  | pattern id text ih =>
    simp only [Node.numberFrom, typeOf, ih, nodeOrInvalid, node, isStringLeaf_numberFrom]
  | escaped id text escape iht ihe =>
    simp only [Node.numberFrom, typeOf, iht, ihe, nodeOrInvalid, node, isStringLeaf_numberFrom,
      isEscapeLeaf_numberFrom]

/-! ## The table of types -/

theorem settle_of_ok {n : Node} {types : List ExprType} {type : ExprType}
    (h : nodeOrInvalid hints n types = .ok type) (table : TypeTable) :
    settle hints n types table = .ok (type, table.set n.id type) := by
  rw [settle, h]

/-- A tree with a type is visited, whatever its identifiers are. -/
theorem visit_of_typeOf {n : Node} {type : ExprType} (h : typeOf hints n = .ok type)
    (table : TypeTable) : ∃ after, visit hints table n = .ok (type, after) := by
  induction n generalizing type table with
  | leaf id token | list id items => exact ⟨_, settle_of_ok h table⟩
  | binary id op left right ihl ihr | escaped id left right ihl ihr =>
    simp only [typeOf, bind_eq_ok] at h
    obtain ⟨l, hl, r, hr, hnode⟩ := h
    obtain ⟨table₁, h₁⟩ := ihl hl table
    obtain ⟨table₂, h₂⟩ := ihr hr table₁
    exact ⟨_, bind_eq_ok.2 ⟨_, h₁, bind_eq_ok.2 ⟨_, h₂, settle_of_ok hnode table₂⟩⟩⟩
  | ternary id op first second third ih₁ ih₂ ih₃ =>
    simp only [typeOf, bind_eq_ok] at h
    obtain ⟨t₁, ht₁, t₂, ht₂, t₃, ht₃, hnode⟩ := h
    obtain ⟨table₁, h₁⟩ := ih₁ ht₁ table
    obtain ⟨table₂, h₂⟩ := ih₂ ht₂ table₁
    obtain ⟨table₃, h₃⟩ := ih₃ ht₃ table₂
    exact ⟨_, bind_eq_ok.2 ⟨_, h₁, bind_eq_ok.2 ⟨_, h₂, bind_eq_ok.2
      ⟨_, h₃, settle_of_ok hnode table₃⟩⟩⟩⟩
  | prefixOp id op operand ih | postfixOp id op operand ih | pattern id operand ih =>
    simp only [typeOf, bind_eq_ok] at h
    obtain ⟨t, ht, hnode⟩ := h
    obtain ⟨table₁, h₁⟩ := ih ht table
    exact ⟨_, bind_eq_ok.2 ⟨_, h₁, settle_of_ok hnode table₁⟩⟩

/-- The identifiers of a table are those of another one and those of the nodes. -/
def Adds (before after : TypeTable) (nodes : List Node) : Prop :=
  ∀ i, i ∈ after.types ↔ i ∈ before.types ∨ i ∈ nodes.map Node.id

theorem adds_nil (table : TypeTable) : Adds table table [] := by
  intro i
  simp

theorem Adds.append {before between after : TypeTable} {xs ys : List Node}
    (hx : Adds before between xs) (hy : Adds between after ys) : Adds before after (xs ++ ys) := by
  intro i
  rw [hy i, hx i, List.map_append, List.mem_append, or_assoc]

theorem Adds.settle {before between after : TypeTable} {n : Node} {types : List ExprType}
    {type : ExprType} {nodes : List Node} (h : Adds before between nodes)
    (hsettle : settle hints n types between = .ok (type, after)) :
    Adds before after (n :: nodes) := by
  intro i
  obtain ⟨rfl, -⟩ := settle_eq hsettle
  rw [TypeTable.set, Std.HashMap.mem_insert, h i, beq_iff_eq, List.map_cons, List.mem_cons,
    eq_comm, or_left_comm]

/-- Visiting a tree adds an entry for every node. -/
theorem adds_of_visit {n : Node} {before after : TypeTable} {type : ExprType}
    (h : visit hints before n = .ok (type, after)) : Adds before after n.preorder := by
  induction n generalizing before after type with
  | leaf id token | list id items => exact (adds_nil before).settle h
  | binary id op left right ihl ihr | escaped id left right ihl ihr =>
    simp only [visit, bind_eq_ok] at h
    obtain ⟨⟨l, table₁⟩, hl, ⟨r, table₂⟩, hr, hsettle⟩ := h
    exact ((ihl hl).append (ihr hr)).settle hsettle
  | ternary id op first second third ih₁ ih₂ ih₃ =>
    simp only [visit, bind_eq_ok] at h
    obtain ⟨⟨t₁, table₁⟩, h₁, ⟨t₂, table₂⟩, h₂, ⟨t₃, table₃⟩, h₃, hsettle⟩ := h
    exact (((ih₁ h₁).append (ih₂ h₂)).append (ih₃ h₃)).settle hsettle
  | prefixOp id op operand ih | postfixOp id op operand ih | pattern id operand ih =>
    simp only [visit, bind_eq_ok] at h
    obtain ⟨⟨t, table₁⟩, h₁, hsettle⟩ := h
    exact (ih h₁).settle hsettle

end Typing

namespace Node

open Typing (typeOf)

variable {hints : Hints} {tree : Node} {table : TypeTable}

/-- The table of a tree has entries at the identifiers of its nodes. -/
theorem mem_of_check (h : tree.check hints = .ok table) (i : Nat) :
    i ∈ table.types ↔ i ∈ tree.preorder.map id := by
  obtain ⟨type, hvisit⟩ := check_eq_ok.1 h
  rw [Typing.adds_of_visit hvisit i]
  simp

/-- Where the identifiers of a tree differ, its table has as many entries as the tree nodes. -/
theorem size_of_check (h : tree.check hints = .ok table) (hnodup : (tree.preorder.map id).Nodup) :
    table.size = tree.preorder.length := by
  have hperm : table.types.keys.Perm (tree.preorder.map id) := by
    rw [List.perm_ext_iff_of_nodup Std.HashMap.nodup_keys hnodup]
    intro i
    rw [Std.HashMap.mem_keys, mem_of_check h]
  rw [TypeTable.size, ← Std.HashMap.length_keys, hperm.length_eq, List.length_map]

end Node

/-! ## The table of patterns -/

namespace Evaluator

/-- Collecting the patterns of a tree collects those of its children. -/
theorem collect_child {before after : Evaluator} {n c : Node} (h : collect before n = .ok after)
    (hc : c ∈ n.children) : ∃ b a, collect b c = .ok a := by
  cases n with
  | leaf | list => cases hc
  | binary id op left right =>
    obtain ⟨between, hl, hr⟩ := bind_eq_ok.1 h
    rcases List.mem_pair.1 hc with rfl | rfl
    · exact ⟨_, _, hl⟩
    · exact ⟨_, _, hr⟩
  | ternary id op first second third =>
    simp only [collect, bind_eq_ok] at h
    obtain ⟨e₁, h₁, e₂, h₂, h₃⟩ := h
    rcases List.mem_cons.1 hc with rfl | hc
    · exact ⟨_, _, h₁⟩
    rcases List.mem_pair.1 hc with rfl | rfl
    · exact ⟨_, _, h₂⟩
    · exact ⟨_, _, h₃⟩
  | prefixOp id op operand | postfixOp id op operand =>
    obtain rfl := List.mem_singleton.1 hc
    exact ⟨_, _, h⟩
  | pattern id text =>
    obtain rfl := List.mem_singleton.1 hc
    obtain ⟨s, -, htext⟩ := bind_eq_ok.1 h
    exact ⟨_, _, htext⟩
  | escaped id text escape =>
    simp only [collect, bind_eq_ok] at h
    obtain ⟨s, -, e, -, between, htext, hescape⟩ := h
    rcases List.mem_pair.1 hc with rfl | rfl
    · exact ⟨_, _, htext⟩
    · exact ⟨_, _, hescape⟩

theorem collect_of_mem {before after : Evaluator} {m n : Node} (h : collect before n = .ok after)
    (hm : m ∈ n.preorder) : ∃ b a, collect b m = .ok a := by
  induction n using Node.induction_children generalizing before after with
  | h n ih =>
    rcases Node.mem_preorder.1 hm with rfl | ⟨c, hc, hm⟩
    · exact ⟨before, after, h⟩
    · obtain ⟨b, a, hchild⟩ := collect_child h hc
      exact ih c hc hchild hm

variable {tree : Node} {evaluator : Evaluator} {i : Nat} {text escape : Node}

/-- Where the identifiers of a tree differ, a pattern is found under that of its node. -/
theorem getElem?_pattern (h : ofTree tree = .ok evaluator)
    (hnodup : (tree.preorder.map Node.id).Nodup) (hm : .pattern i text ∈ tree.preorder) :
    ∃ s, text.string? = some s ∧ evaluator.patterns[i]? = some (Like.compile? s none) := by
  obtain ⟨b, a, hcollect⟩ := collect_of_mem h hm
  obtain ⟨s, hs, -⟩ := bind_eq_ok.1 hcollect
  have hstring := patternString_eq hs
  refine ⟨s, hstring, (collects_of_collect h).entry hnodup _ hm _ ?_⟩
  rw [Node.pieces?, hstring, Option.map_some]

/-- So is a pattern with an escape string. -/
theorem getElem?_escaped (h : ofTree tree = .ok evaluator)
    (hnodup : (tree.preorder.map Node.id).Nodup) (hm : .escaped i text escape ∈ tree.preorder) :
    ∃ s e, text.string? = some s ∧ escape.string? = some e ∧
      evaluator.patterns[i]? = some (Like.compile? s (some e)) := by
  obtain ⟨b, a, hcollect⟩ := collect_of_mem h hm
  simp only [collect, bind_eq_ok] at hcollect
  obtain ⟨s, hs, e, he, -⟩ := hcollect
  have hstring := patternString_eq hs
  have hstring' := patternString_eq he
  refine ⟨s, e, hstring, hstring', (collects_of_collect h).entry hnodup _ hm _ ?_⟩
  rw [Node.pieces?, hstring, hstring', Option.bind_some, Option.map_some]

end Evaluator

/-! ## Numbered trees -/

namespace Node

open Typing (typeOf)

theorem number_id (n : Node) : n.number.1.id = 0 := by
  cases n <;> rfl

theorem nodup_number (n : Node) : (n.number.1.preorder.map id).Nodup := by
  rw [preorder_number]
  exact List.nodup_range

/-- A subtree of a checked tree is checked alone, under identifiers of its own, and its root has the
type that it has in the tree. -/
theorem check_subtree {tree m : Node} {hints : Hints} {table : TypeTable}
    (h : tree.check hints = .ok table) (hnodup : (tree.preorder.map id).Nodup)
    (hm : m ∈ tree.preorder) :
    ∃ own, m.number.1.check hints = .ok own ∧ own.get 0 = table.get m.id := by
  have htype := typeOf_of_check h hnodup m hm
  have hown : typeOf hints m.number.1 = .ok (table.get m.id) := by
    rw [number, Typing.typeOf_numberFrom, htype]
  obtain ⟨own, hvisit⟩ := Typing.visit_of_typeOf hown {}
  have hcheck : m.number.1.check hints = .ok own := check_eq_ok.2 ⟨_, hvisit⟩
  have hroot := typeOf_of_check hcheck m.nodup_number _ (mem_preorder_self _)
  rw [hown, number_id] at hroot
  exact ⟨own, hcheck, (Except.ok.inj hroot).symm⟩

/-- **Side tables cover a numbered tree.** Numbering a tree answers its size and keeps its leaves
and the kinds of its operators; the identifiers are then those below the size in pre-order, each at
one node. If the numbered tree is checked, the table has an entry for each of these identifiers and
no other, and the type of a node is the one that its own subtree alone has under the same hints. If
its patterns are collected, the pieces of a pattern node are found under its identifier. -/
theorem number_tables (tree : Node) :
    tree.number.2 = tree.size ∧ tree.number.1.preorder.map id = List.range tree.size ∧
      tree.number.1.Fits Eq tree ∧
      (∀ hints table, tree.number.1.check hints = .ok table →
        table.size = tree.size ∧ (∀ i, i ∈ table.types ↔ i < tree.size) ∧
        ∀ m ∈ tree.number.1.preorder, ∃ own, m.number.1.check hints = .ok own ∧
          own.get 0 = table.get m.id) ∧
      ∀ evaluator, Evaluator.ofTree tree.number.1 = .ok evaluator →
        (∀ i text, pattern i text ∈ tree.number.1.preorder → ∃ s, text.string? = some s ∧
          evaluator.patterns[i]? = some (Like.compile? s none)) ∧
        ∀ i text escape, escaped i text escape ∈ tree.number.1.preorder →
          ∃ s e, text.string? = some s ∧ escape.string? = some e ∧
            evaluator.patterns[i]? = some (Like.compile? s (some e)) := by
  have hids : tree.number.1.preorder.map id = List.range tree.size := by
    rw [preorder_number, number, size_numberFrom]
  have hnodup := tree.nodup_number
  refine ⟨?_, hids, ?_, fun hints table hcheck => ⟨?_, fun i => ?_, fun m hm => ?_⟩,
    fun evaluator hcollect => ⟨fun i text hm => ?_, fun i text escape hm => ?_⟩⟩
  · rw [number, numberFrom_snd, Nat.zero_add]
  · exact (Matches.refl (fun _ => rfl) tree).numberFrom 0
  · rw [size_of_check hcheck hnodup, ← List.length_map (f := id), hids, List.length_range]
  · rw [mem_of_check hcheck, hids, List.mem_range]
  · exact check_subtree hcheck hnodup hm
  · exact Evaluator.getElem?_pattern hcollect hnodup hm
  · exact Evaluator.getElem?_escaped hcollect hnodup hm

/-- Two patterns of one tree, each under its own identifier although all were zero before. -/
theorem number_tables_patterns :
    let x : Node := .leaf 0 ⟨.ident, "x", 0⟩
    let plain : Token := ⟨.string, "'a!%'", 7⟩
    let text : Token := ⟨.string, "'a!%'", 24⟩
    let escape : Token := ⟨.string, "'!'", 37⟩
    let tree : Node := .binary 0 ⟨.and, "AND", 13⟩
      (.binary 0 ⟨.like, "LIKE", 2⟩ x (.pattern 0 (.leaf 0 plain)))
      (.binary 0 ⟨.like, "LIKE", 19⟩ x (.escaped 0 (.leaf 0 text) (.leaf 0 escape)))
    tree.number.2 = 10 ∧
      (∃ table, tree.number.1.check Hints.empty = .ok table ∧ table.size = 10) ∧
      ∃ evaluator, Evaluator.ofTree tree.number.1 = .ok evaluator ∧
        evaluator.patterns[3]? = some (Like.compile? "a!%" none) ∧
        evaluator.patterns[7]? = some (Like.compile? "a!%" (some "!")) := by
  intro x plain text escape tree
  obtain ⟨hsize, -, -, htable, hpatterns⟩ := number_tables tree
  let numbered : Node := .binary 0 ⟨.and, "AND", 13⟩
    (.binary 1 ⟨.like, "LIKE", 2⟩ (.leaf 2 ⟨.ident, "x", 0⟩) (.pattern 3 (.leaf 4 plain)))
    (.binary 5 ⟨.like, "LIKE", 19⟩ (.leaf 6 ⟨.ident, "x", 0⟩)
      (.escaped 7 (.leaf 8 text) (.leaf 9 escape)))
  have hformed : numbered.Formed fun _ => True :=
    .binary (o := .and) rfl rfl (.like rfl rfl trivial (.pattern rfl trivial))
      (.like rfl rfl trivial (.escaped rfl trivial rfl trivial))
  have hnumbered : tree.number.1 = numbered := rfl
  rw [hnumbered] at htable hpatterns ⊢
  obtain ⟨table, hcheck⟩ := hformed.check_ok Hints.empty
  obtain ⟨evaluator, hcollect⟩ := Evaluator.collect_ok hformed {}
  have htext {i offset : Nat} : (leaf i ⟨.string, "'a!%'", offset⟩).string? = some "a!%" := by
    have hunquote : Text.unquote "'a!%'" = "a!%" := by decide +kernel
    rw [string?, Token.string?_of_kind rfl, hunquote]
  have hescape {i offset : Nat} : (leaf i ⟨.string, "'!'", offset⟩).string? = some "!" := by
    have hunquote : Text.unquote "'!'" = "!" := by decide +kernel
    rw [string?, Token.string?_of_kind rfl, hunquote]
  obtain ⟨hplain, hescaped⟩ := hpatterns evaluator hcollect
  obtain ⟨s, hs, hfound⟩ := hplain 3 (.leaf 4 plain) (by decide)
  obtain ⟨s', e, hs', he, hfound'⟩ := hescaped 7 (.leaf 8 text) (.leaf 9 escape) (by decide)
  obtain rfl : "a!%" = s := Option.some.inj (htext.symm.trans hs)
  obtain rfl : "a!%" = s' := Option.some.inj (htext.symm.trans hs')
  obtain rfl : "!" = e := Option.some.inj (hescape.symm.trans he)
  exact ⟨hsize, ⟨table, hcheck, (htable _ table hcheck).1⟩, evaluator, hcollect, hfound, hfound'⟩

end Node

end MessageSelector
