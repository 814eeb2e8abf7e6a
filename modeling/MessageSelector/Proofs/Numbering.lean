import MessageSelector.Node

/-!
# Numbering

Numbering a tree assigns the identifiers from zero up in pre-order, each to one node
(`preorder_number`), and changes nothing else.
-/

namespace MessageSelector.Node

/-- The first unused identifier is as many behind the first one as the tree has nodes. -/
theorem numberFrom_snd (n : Node) (next : Nat) : (n.numberFrom next).2 = next + n.size := by
  induction n generalizing next with
  | leaf | list => rfl
  | binary id op left right ihl ihr =>
    simp only [numberFrom, ihl, ihr, size]
    omega
  | ternary id op first second third ih₁ ih₂ ih₃ =>
    simp only [numberFrom, ih₁, ih₂, ih₃, size]
    omega
  | prefixOp id op operand ih | postfixOp id op operand ih =>
    simp only [numberFrom, ih, size]
    omega
  | pattern id text ih =>
    simp only [numberFrom, ih, size]
    omega
  | escaped id text escape iht ihe =>
    simp only [numberFrom, iht, ihe, size]
    omega

theorem size_numberFrom (n : Node) (next : Nat) : (n.numberFrom next).1.size = n.size := by
  induction n generalizing next with
  | leaf | list => rfl
  | binary id op left right ihl ihr => simp only [numberFrom, size, ihl, ihr]
  | ternary id op first second third ih₁ ih₂ ih₃ => simp only [numberFrom, size, ih₁, ih₂, ih₃]
  | prefixOp id op operand ih | postfixOp id op operand ih => simp only [numberFrom, size, ih]
  | pattern id text ih => simp only [numberFrom, size, ih]
  | escaped id text escape iht ihe => simp only [numberFrom, size, iht, ihe]

/-- The identifiers of a numbered tree are consecutive in pre-order. -/
theorem preorder_numberFrom (n : Node) (next : Nat) :
    (n.numberFrom next).1.preorder.map id = List.range' next n.size := by
  -- The ranges of neighbouring subtrees meet where the numbering of the first one ends.
  have split (a b k : Nat) : List.range' k (1 + (a + b)) =
      k :: (List.range' (k + 1) a ++ List.range' (k + 1 + a) b) := by
    rw [Nat.add_comm 1, List.range'_succ, List.range'_append_1]
  induction n generalizing next with
  | leaf | list => rfl
  | binary id op left right ihl ihr =>
    simp only [numberFrom, preorder, size, List.map_cons, List.map_append, ihl, ihr,
      numberFrom_snd, split]
    rfl
  | ternary id op first second third ih₁ ih₂ ih₃ =>
    simp only [numberFrom, preorder, size, List.map_cons, List.map_append, ih₁, ih₂, ih₃,
      numberFrom_snd, split, ← List.range'_append_1]
    rw [← Nat.add_assoc]
    rfl
  | prefixOp id op operand ih | postfixOp id op operand ih =>
    simp only [numberFrom, preorder, size, List.map_cons, ih]
    rw [Nat.add_comm 1, List.range'_succ]
    rfl
  | pattern id text ih =>
    simp only [numberFrom, preorder, size, List.map_cons, ih]
    rw [Nat.add_comm 1, List.range'_succ]
    rfl
  | escaped id text escape iht ihe =>
    simp only [numberFrom, preorder, size, List.map_cons, List.map_append, iht, ihe,
      numberFrom_snd, split]
    rfl

theorem preorder_number (n : Node) : n.number.1.preorder.map id = List.range n.number.1.size := by
  rw [number, preorder_numberFrom, size_numberFrom, List.range_eq_range']

end MessageSelector.Node
