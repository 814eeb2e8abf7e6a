import MessageSelector.Node.Printer
import MessageSelector.Node.Shape
import MessageSelector.Proofs.FloatModel
import MessageSelector.Proofs.Translation

/-!
# Trees alike

Trees are alike (`Node.Alike`) if they differ only in identifiers, in offsets and in the spelling of
operators and truth values. Trees alike have the same canonical text (`print_eq`), and each has the
shape of the other (`sameShape`): likeness is symmetric by its form, while the test of shapes
compares numbers, and the undefined number is not equal to itself. `Matches` is the relation behind
this one and others, with the test of identifiers and of tokens left open.
-/

namespace MessageSelector

/-! ## Leaves alike -/

namespace Token

theorem beq_self_of_isFinite {x : Float} (h : x.isFinite) : (x == x) = true := by
  rw [Decimal.FloatModel.beq_iff]
  -- Only the undefined number differs from itself, and it is not finite.
  refine .refl fun hnone => ?_
  have hfinite : x.toModel.unpack.isFinite = true := h
  rw [hnone] at hfinite
  cases hfinite

theorem Literal.payload_beq {t : Token} (h : t.Literal) :
    (t.payload? == t.payload?) = true := by
  cases h with
  | trueWord hk | falseWord hk => rw [payload?, hk]; rfl
  | ident hk =>
    rw [payload?, hk]
    exact beq_self_eq_true t.text
  | string s _ hp =>
    rw [hp]
    exact beq_self_eq_true s
  | int n _ hp =>
    rw [hp]
    exact beq_self_eq_true n
  | float x _ hp hfinite =>
    rw [hp]
    exact beq_self_of_isFinite hfinite
  | hex n _ hp =>
    rw [hp]
    exact beq_self_eq_true n

/-- The tokens are of one kind, are printed alike and stand for the same. -/
structure Alike (a b : Token) : Prop where
  kind_eq : a.kind = b.kind
  printLeaf_eq : Node.printLeaf a = Node.printLeaf b
  payload_eq : a.payload? = b.payload?
  payload_beq : (a.payload? == a.payload?) = true

theorem Alike.symm {a b : Token} (h : a.Alike b) : b.Alike a :=
  ⟨h.kind_eq.symm, h.printLeaf_eq.symm, h.payload_eq.symm, h.payload_eq ▸ h.payload_beq⟩

theorem Alike.sameShape {a b : Token} (h : a.Alike b) : a.sameShape b = true := by
  rw [Token.sameShape, ← h.payload_eq, h.payload_beq, h.kind_eq]
  simp

end Token

/-! ## Trees that match -/

namespace Node

/-- The trees have operators of the same kinds and the same lists in the same places, and their
identifiers and leaves are in the relations. -/
inductive Matches (sameId : Nat → Nat → Prop) (same : Token → Token → Prop) : Node → Node → Prop
  | leaf {i j : Nat} {a b : Token} : sameId i j → same a b →
    Matches sameId same (.leaf i a) (.leaf j b)
  | binary {i j : Nat} {op op' : Token} {left right left' right' : Node} : sameId i j →
    op.kind = op'.kind → Matches sameId same left left' → Matches sameId same right right' →
      Matches sameId same (.binary i op left right) (.binary j op' left' right')
  | ternary {i j : Nat} {op op' : Token} {first second third first' second' third' : Node} :
    sameId i j → op.kind = op'.kind → Matches sameId same first first' →
      Matches sameId same second second' → Matches sameId same third third' →
        Matches sameId same (.ternary i op first second third)
          (.ternary j op' first' second' third')
  | prefixOp {i j : Nat} {op op' : Token} {operand operand' : Node} : sameId i j →
    op.kind = op'.kind → Matches sameId same operand operand' →
      Matches sameId same (.prefixOp i op operand) (.prefixOp j op' operand')
  | postfixOp {i j : Nat} {op op' : Token} {operand operand' : Node} : sameId i j →
    op.kind = op'.kind → Matches sameId same operand operand' →
      Matches sameId same (.postfixOp i op operand) (.postfixOp j op' operand')
  | pattern {i j : Nat} {text text' : Node} : sameId i j → Matches sameId same text text' →
    Matches sameId same (.pattern i text) (.pattern j text')
  | escaped {i j : Nat} {text escape text' escape' : Node} : sameId i j →
    Matches sameId same text text' → Matches sameId same escape escape' →
      Matches sameId same (.escaped i text escape) (.escaped j text' escape')
  | list {i j : Nat} : sameId i j → (items : List String) →
    Matches sameId same (.list i items) (.list j items)

/-- The trees match, whatever their identifiers are. -/
abbrev Fits (same : Token → Token → Prop) : Node → Node → Prop :=
  Matches (fun _ _ => True) same

namespace Matches

variable {sameId : Nat → Nat → Prop} {same : Token → Token → Prop} {k m n : Node}

attribute [local simp] Node.sameShape

theorem refl (h : ∀ t, same t t) (n : Node) : n.Fits same n := by
  induction n with
  | leaf i t => exact .leaf trivial (h t)
  | binary _ _ _ _ ihl ihr => exact .binary trivial rfl ihl ihr
  | ternary _ _ _ _ _ ih₁ ih₂ ih₃ => exact .ternary trivial rfl ih₁ ih₂ ih₃
  | prefixOp _ _ _ ih => exact .prefixOp trivial rfl ih
  | postfixOp _ _ _ ih => exact .postfixOp trivial rfl ih
  | pattern _ _ ih => exact .pattern trivial ih
  | escaped _ _ _ iht ihe => exact .escaped trivial iht ihe
  | list _ items => exact .list trivial items

theorem symm (hsame : ∀ a b, same a b → same b a) (h : m.Fits same n) : n.Fits same m := by
  induction h with
  | leaf _ ht => exact .leaf trivial (hsame _ _ ht)
  | binary _ hop _ _ ihl ihr => exact .binary trivial hop.symm ihl ihr
  | ternary _ hop _ _ _ ih₁ ih₂ ih₃ => exact .ternary trivial hop.symm ih₁ ih₂ ih₃
  | prefixOp _ hop _ ih => exact .prefixOp trivial hop.symm ih
  | postfixOp _ hop _ ih => exact .postfixOp trivial hop.symm ih
  | pattern _ _ ih => exact .pattern trivial ih
  | escaped _ _ _ iht ihe => exact .escaped trivial iht ihe
  | list _ items => exact .list trivial items

theorem trans (hsame : ∀ a b c, same a b → same b c → same a c) (h : k.Fits same m)
    (h' : m.Fits same n) : k.Fits same n := by
  induction h generalizing n with
  | leaf _ ht =>
    cases h' with
    | leaf _ ht' => exact .leaf trivial (hsame _ _ _ ht ht')
  | binary _ hop _ _ ihl ihr =>
    cases h' with
    | binary _ hop' hl hr => exact .binary trivial (hop.trans hop') (ihl hl) (ihr hr)
  | ternary _ hop _ _ _ ih₁ ih₂ ih₃ =>
    cases h' with
    | ternary _ hop' h₁ h₂ h₃ =>
      exact .ternary trivial (hop.trans hop') (ih₁ h₁) (ih₂ h₂) (ih₃ h₃)
  | prefixOp _ hop _ ih =>
    cases h' with
    | prefixOp _ hop' h => exact .prefixOp trivial (hop.trans hop') (ih h)
  | postfixOp _ hop _ ih =>
    cases h' with
    | postfixOp _ hop' h => exact .postfixOp trivial (hop.trans hop') (ih h)
  | pattern _ _ ih =>
    cases h' with
    | pattern _ h => exact .pattern trivial (ih h)
  | escaped _ _ _ iht ihe =>
    cases h' with
    | escaped _ ht he => exact .escaped trivial (iht ht) (ihe he)
  | list _ items =>
    cases h' with
    | list => exact .list trivial items

theorem numberFrom (h : m.Fits same n) (next : Nat) : (m.numberFrom next).1.Fits same n := by
  induction h generalizing next with
  | leaf _ ht => exact .leaf trivial ht
  | binary _ hop _ _ ihl ihr => exact .binary trivial hop (ihl _) (ihr _)
  | ternary _ hop _ _ _ ih₁ ih₂ ih₃ => exact .ternary trivial hop (ih₁ _) (ih₂ _) (ih₃ _)
  | prefixOp _ hop _ ih => exact .prefixOp trivial hop (ih _)
  | postfixOp _ hop _ ih => exact .postfixOp trivial hop (ih _)
  | pattern _ _ ih => exact .pattern trivial (ih _)
  | escaped _ _ _ iht ihe => exact .escaped trivial (iht _) (ihe _)
  | list _ items => exact .list trivial items

/-- Trees that match in the shape of their leaves are of the same shape. -/
theorem sameShape (hsame : ∀ a b, same a b → a.sameShape b) (h : m.Matches sameId same n) :
    m.sameShape n = true := by
  induction h with
  | leaf _ ht => exact hsame _ _ ht
  | binary _ hop _ _ ihl ihr => simp [hop, ihl, ihr]
  | ternary _ hop _ _ _ ih₁ ih₂ ih₃ => simp [hop, ih₁, ih₂, ih₃]
  | prefixOp _ hop _ ih | postfixOp _ hop _ ih => simp [hop, ih]
  | pattern _ _ ih => exact ih
  | escaped _ _ _ iht ihe => simp [iht, ihe]
  | list _ items => simp

end Matches

/-- The trees differ only in identifiers, in offsets and in spelling. -/
abbrev Alike : Node → Node → Prop :=
  Fits Token.Alike

namespace Alike

variable {m n : Node}

theorem symm (h : m.Alike n) : n.Alike m :=
  Matches.symm (fun _ _ => Token.Alike.symm) h

theorem sameShape (h : m.Alike n) : m.sameShape n = true :=
  Matches.sameShape (fun _ _ => Token.Alike.sameShape) h

theorem print_eq (h : m.Alike n) : m.print = n.print := by
  induction h with
  | leaf _ ht => exact ht.printLeaf_eq
  | binary _ hop _ _ ihl ihr => rw [print, print, hop, ihl, ihr]
  | ternary _ hop _ _ _ ih₁ ih₂ ih₃ => rw [print, print, hop, ih₁, ih₂, ih₃]
  | prefixOp _ hop _ ih | postfixOp _ hop _ ih => rw [print, print, hop, ih]
  | pattern _ _ ih => exact ih
  | escaped _ _ _ iht ihe => rw [print, print, iht, ihe]
  | list _ items => rfl

end Alike

end Node

end MessageSelector
