import MessageSelector.Proofs.FloatModel
import MessageSelector.Proofs.Reparsing
import MessageSelector.Proofs.Scanning
import MessageSelector.Proofs.Selection

/-!
# Trees of the same shape

The test of shapes is an equivalence of trees. It leaves out identifiers, offsets and spelling, and
for the trees of two texts nothing of this can be told apart afterwards (`Token.Twin`,
`Node.sameShape_sound`): literals of the same shape stand for the very same, since no number in a
text is negative, and identifiers count the nodes in pre-order, which trees of the same shape have
in the same places. So the passes over both trees give the same types, the same pattern tables, the
same values and the same program.
-/

namespace MessageSelector

/-! ## Equality of payloads -/

namespace Decimal.FloatModel

theorem Equal.symm {u v : Float.Model.UnpackedFloat} (h : Equal u v) : Equal v u := by
  cases h with
  | refl hne => exact .refl hne
  | zero s t => exact .zero t s

theorem Equal.trans {u v w : Float.Model.UnpackedFloat} (h : Equal u v) (h' : Equal v w) :
    Equal u w := by
  cases h with
  | refl => exact h'
  | zero s t =>
    cases h' with
    | refl => exact .zero s t
    | zero _ r => exact .zero s r

end Decimal.FloatModel

namespace Token

open Decimal (FloatModel.beq_iff)

/-- Whether two payloads are equal, where numbers are compared as numbers. -/
inductive Payload.Same : Payload → Payload → Prop
  | ident (name : String) : Same (.ident name) (.ident name)
  | string (s : String) : Same (.string s) (.string s)
  | int (n : Int64) : Same (.int n) (.int n)
  | hex (n : UInt64) : Same (.hex n) (.hex n)
  | float {x y : Float} : (x == y) = true → Same (.float x) (.float y)

theorem Payload.beq_iff {p q : Payload} : (p == q) = true ↔ p.Same q := by
  constructor
  · intro h
    cases p <;> cases q <;> try cases h
    case ident a b =>
      obtain rfl : a = b := beq_iff_eq.1 (show (a == b) = true from h)
      exact .ident a
    case string a b =>
      obtain rfl : a = b := beq_iff_eq.1 (show (a == b) = true from h)
      exact .string a
    case int a b =>
      obtain rfl : a = b := beq_iff_eq.1 (show (a == b) = true from h)
      exact .int a
    case hex a b =>
      obtain rfl : a = b := beq_iff_eq.1 (show (a == b) = true from h)
      exact .hex a
    case float => exact .float h
  · intro h
    cases h with
    | ident a => exact beq_self_eq_true a
    | string a => exact beq_self_eq_true a
    | int a => exact beq_self_eq_true a
    | hex a => exact beq_self_eq_true a
    | float h => exact h

theorem Payload.Same.symm {p q : Payload} (h : p.Same q) : q.Same p := by
  cases h with
  | ident a => exact .ident a
  | string a => exact .string a
  | int a => exact .int a
  | hex a => exact .hex a
  | float h => exact .float (FloatModel.beq_iff.2 (FloatModel.beq_iff.1 h).symm)

theorem Payload.Same.trans {p q r : Payload} (h : p.Same q) (h' : q.Same r) : p.Same r := by
  cases h with
  | ident | string | int | hex => exact h'
  | float hxy =>
    cases h' with
    | float hyz =>
      have heq := (FloatModel.beq_iff.1 hxy).trans (FloatModel.beq_iff.1 hyz)
      exact .float (FloatModel.beq_iff.2 heq)

/-! ## The shape of tokens -/

theorem sameShape_iff {a b : Token} :
    a.sameShape b = true ↔ a.kind = b.kind ∧
      ((a.payload? = none ∧ b.payload? = none) ∨
        ∃ p q, a.payload? = some p ∧ b.payload? = some q ∧ p.Same q) := by
  rw [sameShape, Bool.and_eq_true, decide_eq_true_eq, and_congr_right_iff]
  intro _
  cases a.payload? <;> cases b.payload? <;> simp [Payload.beq_iff]

theorem sameShape_refl (t : Token) : t.sameShape t = true := by
  rw [sameShape_iff]
  refine ⟨rfl, ?_⟩
  cases hp : t.payload? with
  | none => exact .inl ⟨rfl, rfl⟩
  | some p =>
    refine .inr ⟨p, p, rfl, rfl, ?_⟩
    cases p with
    | ident a => exact .ident a
    | string a => exact .string a
    | int a => exact .int a
    | hex a => exact .hex a
    | float x => exact .float (beq_self_of_isFinite (isFinite_of_payload? hp))

theorem sameShape_symm {a b : Token} (h : a.sameShape b = true) : b.sameShape a = true := by
  obtain ⟨hkind, hpayload⟩ := sameShape_iff.1 h
  refine sameShape_iff.2 ⟨hkind.symm, ?_⟩
  rcases hpayload with ⟨ha, hb⟩ | ⟨p, q, hp, hq, hsame⟩
  · exact .inl ⟨hb, ha⟩
  · exact .inr ⟨q, p, hq, hp, hsame.symm⟩

theorem sameShape_trans {a b c : Token} (h : a.sameShape b = true) (h' : b.sameShape c = true) :
    a.sameShape c = true := by
  obtain ⟨hkind, hpayload⟩ := sameShape_iff.1 h
  obtain ⟨hkind', hpayload'⟩ := sameShape_iff.1 h'
  refine sameShape_iff.2 ⟨hkind.trans hkind', ?_⟩
  rcases hpayload with ⟨ha, hb⟩ | ⟨p, q, hp, hq, hsame⟩
  · rcases hpayload' with ⟨-, hc⟩ | ⟨q, r, hq, -⟩
    · exact .inl ⟨ha, hc⟩
    · rw [hb] at hq
      cases hq
  · rcases hpayload' with ⟨hb, -⟩ | ⟨q', r, hq', hr, hsame'⟩
    · rw [hb] at hq
      cases hq
    · rw [hq] at hq'
      cases hq'
      exact .inr ⟨p, r, hp, hr, hsame.trans hsame'⟩

/-! ## Literals of the same shape -/

/-- Literals of one kind that stand for the same. -/
structure Twin (a b : Token) : Prop where
  literal : a.Literal
  kind_eq : a.kind = b.kind
  payload_eq : a.payload? = b.payload?

/-- No number of a text is negative. -/
theorem Found.sign_float {t : Token} (h : t.Found) {x : Float}
    (hp : t.payload? = some (.float x)) :
    Decimal.FloatModel.sign x.toModel.unpack = .positive := by
  have hk := kind_of_float hp
  obtain ⟨numeral, suffix, n, -, -, hn, hvalue⟩ := (h.floatText hk).float?
  rw [payload?, hk] at hp
  obtain ⟨y, hy, hxy⟩ := Option.map_eq_some_iff.1 hp
  cases hxy
  rw [hvalue, Option.filter_eq_some_iff] at hy
  obtain rfl : n.toFloat = x := Option.some.inj hy.1
  rw [Decimal.Numeral.toFloat, Decimal.Numeral.negative_of_unsigned? hn]
  exact Decimal.FloatModel.sign_magnitude _ _

/-- Literals of the same shape, as a scan finds them, stand for the very same. -/
theorem Scanned.twin {a b : Token} (ha : a.Scanned) (hb : b.Scanned) (hk : a.kind.isOperand)
    (h : a.sameShape b = true) : a.Twin b := by
  obtain ⟨hkind, hpayload⟩ := sameShape_iff.1 h
  refine ⟨ha.valued.literal hk, hkind, ?_⟩
  rcases hpayload with ⟨ha', hb'⟩ | ⟨p, q, hp, hq, hsame⟩
  · rw [ha', hb']
  · rw [hp, hq]
    cases hsame with
    | ident | string | int | hex => rfl
    | float heq =>
      rw [Decimal.FloatModel.eq_of_beq (ha.found.sign_float hp) (hb.found.sign_float hq) heq]

end Token

/-! ## The shape of trees -/

namespace Node

theorem sameShape_iff {m n : Node} :
    m.sameShape n = true ↔ m.Fits (fun a b => a.sameShape b = true) n := by
  constructor
  · intro h
    induction m generalizing n with
    | leaf i a =>
      cases n <;> try cases h
      exact .leaf trivial h
    | binary i op left right ihl ihr =>
      cases n <;> try cases h
      simp only [sameShape, Bool.and_eq_true, decide_eq_true_eq] at h
      exact .binary trivial h.1 (ihl h.2.1) (ihr h.2.2)
    | ternary i op first second third ih₁ ih₂ ih₃ =>
      cases n <;> try cases h
      simp only [sameShape, Bool.and_eq_true, decide_eq_true_eq] at h
      exact .ternary trivial h.1 (ih₁ h.2.1.1) (ih₂ h.2.1.2) (ih₃ h.2.2)
    | prefixOp i op operand ih =>
      cases n <;> try cases h
      simp only [sameShape, Bool.and_eq_true, decide_eq_true_eq] at h
      exact .prefixOp trivial h.1 (ih h.2)
    | postfixOp i op operand ih =>
      cases n <;> try cases h
      simp only [sameShape, Bool.and_eq_true, decide_eq_true_eq] at h
      exact .postfixOp trivial h.1 (ih h.2)
    | pattern i text ih =>
      cases n <;> try cases h
      exact .pattern trivial (ih h)
    | escaped i text escape iht ihe =>
      cases n <;> try cases h
      simp only [sameShape, Bool.and_eq_true] at h
      exact .escaped trivial (iht h.1) (ihe h.2)
    | list i items =>
      cases n <;> try cases h
      obtain rfl := of_decide_eq_true h
      exact .list trivial items
  · exact Matches.sameShape fun _ _ h => h

theorem sameShape_refl (n : Node) : n.sameShape n = true :=
  sameShape_iff.2 (.refl Token.sameShape_refl n)

theorem sameShape_symm {m n : Node} (h : m.sameShape n = true) : n.sameShape m = true :=
  sameShape_iff.2 ((sameShape_iff.1 h).symm fun _ _ => Token.sameShape_symm)

theorem sameShape_trans {k m n : Node} (h : k.sameShape m = true) (h' : m.sameShape n = true) :
    k.sameShape n = true :=
  sameShape_iff.2 ((sameShape_iff.1 h).trans (fun _ _ _ => Token.sameShape_trans)
    (sameShape_iff.1 h'))

/-- Formed trees of the same shape fit in literals that stand for the same. -/
theorem FormedPart.twins {m n : Node} (hm : m.FormedPart Token.Scanned)
    (hn : n.FormedPart Token.Scanned) (h : m.Fits (fun a b => a.sameShape b = true) n) :
    m.Fits Token.Twin n := by
  have first (c : Node) (rest : List Node) : c ∈ c :: rest := List.mem_cons_self
  have second (c d : Node) (rest : List Node) : c ∈ d :: c :: rest := by simp
  have third (c d e : Node) : c ∈ [d, e, c] := by simp
  induction h with
  | leaf _ hab =>
    cases hm with
    | expression hm =>
      cases hn with
      | expression hn =>
        cases hm with
        | leaf hk ha =>
          cases hn with
          | leaf _ hb => exact .leaf trivial (ha.twin hb hk hab)
      | pattern hn => cases hn
    | pattern hm => cases hm
  | binary _ hop _ _ ihl ihr =>
    exact .binary trivial hop (ihl (hm.children _ (first _ _)) (hn.children _ (first _ _)))
      (ihr (hm.children _ (second _ _ _)) (hn.children _ (second _ _ _)))
  | ternary _ hop _ _ _ ih₁ ih₂ ih₃ =>
    exact .ternary trivial hop (ih₁ (hm.children _ (first _ _)) (hn.children _ (first _ _)))
      (ih₂ (hm.children _ (second _ _ _)) (hn.children _ (second _ _ _)))
      (ih₃ (hm.children _ (third _ _ _)) (hn.children _ (third _ _ _)))
  | prefixOp _ hop _ ih =>
    exact .prefixOp trivial hop (ih (hm.children _ (first _ _)) (hn.children _ (first _ _)))
  | postfixOp _ hop _ ih =>
    exact .postfixOp trivial hop (ih (hm.children _ (first _ _)) (hn.children _ (first _ _)))
  | pattern _ _ ih =>
    exact .pattern trivial (ih (hm.children _ (first _ _)) (hn.children _ (first _ _)))
  | escaped _ _ _ iht ihe =>
    exact .escaped trivial (iht (hm.children _ (first _ _)) (hn.children _ (first _ _)))
      (ihe (hm.children _ (second _ _ _)) (hn.children _ (second _ _ _)))
  | list _ items => exact .list trivial items

namespace Matches

variable {sameId : Nat → Nat → Prop} {same : Token → Token → Prop} {m n : Node}

theorem size_eq (h : m.Matches sameId same n) : m.size = n.size := by
  induction h with
  | leaf | list => rfl
  | binary _ _ _ _ ihl ihr => rw [size, size, ihl, ihr]
  | ternary _ _ _ _ _ ih₁ ih₂ ih₃ => rw [size, size, ih₁, ih₂, ih₃]
  | prefixOp _ _ _ ih | postfixOp _ _ _ ih => rw [size, size, ih]
  | pattern _ _ ih => rw [size, size, ih]
  | escaped _ _ _ iht ihe => rw [size, size, iht, ihe]

/-- Trees that fit get the same identifiers, since they have nodes in the same places. -/
theorem number (h : m.Fits same n) (next : Nat) :
    (m.numberFrom next).1.Matches Eq same (n.numberFrom next).1 := by
  induction h generalizing next with
  | leaf _ ht => exact .leaf rfl ht
  | binary _ hop hl _ ihl ihr =>
    simp only [Node.numberFrom, numberFrom_snd, hl.size_eq]
    exact .binary rfl hop (ihl _) (ihr _)
  | ternary _ hop h₁ h₂ _ ih₁ ih₂ ih₃ =>
    simp only [Node.numberFrom, numberFrom_snd, h₁.size_eq, h₂.size_eq]
    exact .ternary rfl hop (ih₁ _) (ih₂ _) (ih₃ _)
  | prefixOp _ hop _ ih => exact .prefixOp rfl hop (ih _)
  | postfixOp _ hop _ ih => exact .postfixOp rfl hop (ih _)
  | pattern _ _ ih => exact .pattern rfl (ih _)
  | escaped _ ht _ iht ihe =>
    simp only [Node.numberFrom, numberFrom_snd, ht.size_eq]
    exact .escaped rfl (iht _) (ihe _)
  | list _ items => exact .list rfl items

/-- Trees with the same identifiers have them in the same order. -/
theorem preorder_id_eq (h : m.Matches Eq same n) : m.preorder.map id = n.preorder.map id := by
  induction h with
  | leaf hid _ | list hid _ =>
    subst hid
    rfl
  | binary hid _ _ _ ihl ihr =>
    subst hid
    simp only [preorder, List.map_cons, List.map_append, ihl, ihr, id]
  | ternary hid _ _ _ _ ih₁ ih₂ ih₃ =>
    subst hid
    simp only [preorder, List.map_cons, List.map_append, ih₁, ih₂, ih₃, id]
  | prefixOp hid _ _ ih | postfixOp hid _ _ ih =>
    subst hid
    simp only [preorder, List.map_cons, ih, id]
  | pattern hid _ ih =>
    subst hid
    simp only [preorder, List.map_cons, ih, id]
  | escaped hid _ _ iht ihe =>
    subst hid
    simp only [preorder, List.map_cons, List.map_append, iht, ihe, id]

theorem id_eq (h : m.Matches Eq same n) : m.id = n.id := by
  cases h <;> assumption

end Matches

/-- Numbering a numbered tree once more changes nothing. -/
theorem numberFrom_numberFrom (n : Node) (next : Nat) :
    (n.numberFrom next).1.numberFrom next = n.numberFrom next := by
  induction n generalizing next with
  | leaf | list => rfl
  | binary id op left right ihl ihr => simp only [numberFrom, ihl, ihr]
  | ternary id op first second third ih₁ ih₂ ih₃ => simp only [numberFrom, ih₁, ih₂, ih₃]
  | prefixOp id op operand ih | postfixOp id op operand ih => simp only [numberFrom, ih]
  | pattern id text ih => simp only [numberFrom, ih]
  | escaped id text escape iht ihe => simp only [numberFrom, iht, ihe]

end Node

/-! ## Passes over twins -/

namespace Token.Twin

variable {a b : Token} (h : a.Twin b)

include h

theorem text_eq (hk : a.kind = .ident) : a.text = b.text := by
  have hpayload := h.payload_eq
  rw [payload?, payload?, ← h.kind_eq, hk] at hpayload
  exact Payload.ident.inj (Option.some.inj hpayload)

theorem string?_eq : a.string? = b.string? := by
  rw [string?, string?, h.payload_eq]

theorem typing_leaf (hints : Hints) : Typing.leaf hints a = Typing.leaf hints b := by
  rw [Typing.leaf, Typing.leaf, ← h.kind_eq]
  cases hk : a.kind
  case ident => rw [h.text_eq hk]
  all_goals rfl

theorem leafValue (source : PropertySource) :
    Evaluator.leafValue source a = Evaluator.leafValue source b := by
  cases h.literal with
  | trueWord hk | falseWord hk =>
    rw [Evaluator.leafValue, Evaluator.leafValue, ← h.kind_eq, hk]
  | ident hk => rw [Evaluator.leafValue, Evaluator.leafValue, ← h.kind_eq, hk, h.text_eq hk]
  | string _ hk hp | int _ hk hp | float _ hk hp _ | hex _ hk hp =>
    rw [Evaluator.leafValue, Evaluator.leafValue, ← h.kind_eq, hk, ← h.payload_eq, hp]

/-- A literal is compiled without an error, which would name its text. -/
theorem compilation_leaf : Compilation.leaf a = Compilation.leaf b := by
  cases h.literal with
  | trueWord hk | falseWord hk =>
    rw [Compilation.leaf, Compilation.leaf, ← h.kind_eq, hk]
  | ident hk => rw [Compilation.leaf, Compilation.leaf, ← h.kind_eq, hk, h.text_eq hk]
  | string _ hk hp | int _ hk hp | hex _ hk hp =>
    rw [Compilation.leaf, Compilation.leaf, ← h.kind_eq, hk, ← h.payload_eq, hp]
  | float x hk hp hfinite =>
    rw [Compilation.leaf, Compilation.leaf, ← h.kind_eq, hk, ← h.payload_eq, hp]
    simp only [Term.floatText?, if_pos hfinite]

end Token.Twin

namespace Node

/-- Trees that differ only in offsets and spelling. -/
abbrev Twins : Node → Node → Prop :=
  Matches Eq Token.Twin

namespace Twins

variable {m n : Node}

theorem string?_eq (h : m.Twins n) : m.string? = n.string? := by
  cases h with
  | leaf _ ht => exact ht.string?_eq
  | binary | ternary | prefixOp | postfixOp | pattern | escaped | list => rfl

theorem isStringLeaf_eq (h : m.Twins n) : Typing.isStringLeaf m = Typing.isStringLeaf n := by
  cases h with
  | leaf _ ht => rw [Typing.isStringLeaf, Typing.isStringLeaf, ht.kind_eq]
  | binary | ternary | prefixOp | postfixOp | pattern | escaped | list => rfl

theorem isEscapeLeaf_eq (h : m.Twins n) : Typing.isEscapeLeaf m = Typing.isEscapeLeaf n := by
  cases h with
  | leaf _ ht => rw [Typing.isEscapeLeaf, Typing.isEscapeLeaf, ht.string?_eq]
  | binary | ternary | prefixOp | postfixOp | pattern | escaped | list => rfl

/-- Twins are typed alike, given the types of their children. -/
theorem node_eq (h : m.Twins n) (hints : Hints) (types : List ExprType) :
    Typing.node hints m types = Typing.node hints n types := by
  cases h with
  | leaf _ ht => exact ht.typing_leaf hints
  | binary _ hop | ternary _ hop | prefixOp _ hop | postfixOp _ hop =>
    simp only [Typing.node, hop]
  | pattern _ ht => rw [Typing.node, Typing.node, isStringLeaf_eq ht]
  | escaped _ ht he => rw [Typing.node, Typing.node, isStringLeaf_eq ht, isEscapeLeaf_eq he]
  | list => rfl

theorem settle_eq (h : m.Twins n) (hints : Hints) (types : List ExprType) (table : TypeTable) :
    Typing.settle hints m types table = Typing.settle hints n types table := by
  rw [Typing.settle, Typing.settle, Typing.nodeOrInvalid, Typing.nodeOrInvalid, node_eq h, h.id_eq]

theorem visit_eq (h : m.Twins n) (hints : Hints) (table : TypeTable) :
    Typing.visit hints table m = Typing.visit hints table n := by
  induction h generalizing table with
  | leaf hid ht => exact settle_eq (.leaf hid ht) hints [] table
  | list hid items => exact settle_eq (.list hid items) hints [] table
  | binary hid hop hl hr ihl ihr =>
    simp only [Typing.visit, ihl, ihr, settle_eq (.binary hid hop hl hr)]
  | ternary hid hop h₁ h₂ h₃ ih₁ ih₂ ih₃ =>
    simp only [Typing.visit, ih₁, ih₂, ih₃, settle_eq (.ternary hid hop h₁ h₂ h₃)]
  | prefixOp hid hop h ih =>
    simp only [Typing.visit, ih, settle_eq (.prefixOp hid hop h)]
  | postfixOp hid hop h ih =>
    simp only [Typing.visit, ih, settle_eq (.postfixOp hid hop h)]
  | pattern hid h ih => simp only [Typing.visit, ih, settle_eq (.pattern hid h)]
  | escaped hid ht he iht ihe =>
    simp only [Typing.visit, iht, ihe, settle_eq (.escaped hid ht he)]

theorem patternString_eq (h : m.Twins n) :
    Evaluator.patternString m = Evaluator.patternString n := by
  rw [Evaluator.patternString, Evaluator.patternString, string?_eq h]

theorem collect_eq (h : m.Twins n) (evaluator : Evaluator) :
    evaluator.collect m = evaluator.collect n := by
  induction h generalizing evaluator with
  | leaf | list => rfl
  | binary _ _ _ _ ihl ihr => simp only [Evaluator.collect, ihl, ihr]
  | ternary _ _ _ _ _ ih₁ ih₂ ih₃ => simp only [Evaluator.collect, ih₁, ih₂, ih₃]
  | prefixOp _ _ _ ih | postfixOp _ _ _ ih => simp only [Evaluator.collect, ih]
  | pattern hid h ih =>
    subst hid
    simp only [Evaluator.collect, patternString_eq h, ih]
  | escaped hid ht he iht ihe =>
    subst hid
    simp only [Evaluator.collect, patternString_eq ht, patternString_eq he, iht, ihe]

theorem items_eq (h : m.Twins n) : Evaluator.items m = Evaluator.items n := by
  cases h <;> rfl

theorem value_eq (h : m.Twins n) (evaluator : Evaluator) (types : TypeTable)
    (source : PropertySource) :
    evaluator.value types source m = evaluator.value types source n := by
  induction h with
  | leaf hid ht =>
    subst hid
    rw [Evaluator.value, Evaluator.value, ht.leafValue]
  | binary hid hop hl hr ihl ihr =>
    subst hid
    simp only [Evaluator.value, hop, ihl, ihr, hr.id_eq, items_eq hr]
  | ternary hid hop _ _ _ ih₁ ih₂ ih₃ =>
    subst hid
    simp only [Evaluator.value, hop, ih₁, ih₂, ih₃]
  | prefixOp hid hop _ ih | postfixOp hid hop _ ih =>
    subst hid
    simp only [Evaluator.value, hop, ih]
  | pattern | escaped | list => rfl

theorem stringLeaf_eq (h : m.Twins n) : Compilation.stringLeaf m = Compilation.stringLeaf n := by
  rw [Compilation.stringLeaf, Compilation.stringLeaf, string?_eq h]

theorem pattern_eq (h : m.Twins n) : Compilation.pattern m = Compilation.pattern n := by
  cases h with
  | pattern _ ht => rw [Compilation.pattern, Compilation.pattern, stringLeaf_eq ht]
  | escaped _ ht he =>
    rw [Compilation.pattern, Compilation.pattern, stringLeaf_eq ht, stringLeaf_eq he]
  | leaf | binary | ternary | prefixOp | postfixOp | list => rfl

theorem list_eq (h : m.Twins n) : Compilation.list m = Compilation.list n := by
  cases h <;> rfl

theorem compile_eq (h : m.Twins n) : m.compile = n.compile := by
  induction h with
  | leaf _ ht => exact ht.compilation_leaf
  | binary _ hop _ hr ihl ihr =>
    simp only [compile, hop, ihl, ihr, pattern_eq hr, list_eq hr]
  | ternary _ hop _ _ _ ih₁ ih₂ ih₃ => simp only [compile, hop, ih₁, ih₂, ih₃]
  | prefixOp _ hop _ ih | postfixOp _ hop _ ih => simp only [compile, hop, ih]
  | pattern | escaped | list => rfl

end Twins

/-- The tree of a text is numbered. -/
theorem numberFrom_of_parse {text : String} {tree : Node} (h : parse text = .ok tree) :
    (tree.numberFrom 0).1 = tree := by
  have hreading := parse_reading text
  rw [h] at hreading
  cases hreading with
  | ok _ _ htree _ =>
    rw [Derivation.tree?] at htree
    split at htree
    · next node _ =>
      obtain rfl : node.number.1 = tree := Option.some.inj htree
      rw [number, numberFrom_numberFrom]
    · cases htree

/-- The trees of two texts are twins, if they are of the same shape. -/
theorem twins_of_sameShape {s t : String} {m n : Node} (hm : parse s = .ok m)
    (hn : parse t = .ok n) (h : m.sameShape n = true) : m.Twins n := by
  have hfits := FormedPart.twins (.expression (parse_formed hm)) (.expression (parse_formed hn))
    (sameShape_iff.1 h)
  have htwins := hfits.number 0
  rwa [numberFrom_of_parse hm, numberFrom_of_parse hn] at htwins

end Node

/-! ## Values under any types -/

namespace Evaluator

/-- A formed tree has a value under any types, also where it has a type error, if its patterns are
in the table. -/
theorem exists_value {n : Node} (h : n.Formed Token.Valued) {evaluator : Evaluator}
    (hpatterns : ∀ m ∈ n.preorder, ∀ pieces, m.pieces? = some pieces →
      evaluator.patterns[m.id]? = some pieces) (types : TypeTable) (source : PropertySource) :
    ∃ v, evaluator.value types source n = .ok v := by
  have hleaf (id : Nat) {t : Token} (ht : t.Literal) :
      ∃ v, evaluator.value types source (.leaf id t) = .ok v := by
    obtain ⟨v, hv, -⟩ := leaf_agrees ht source
    exact ⟨_, by rw [value, hv]; rfl⟩
  induction h with
  | leaf hk ht => exact hleaf _ (ht.literal hk)
  | @binary id op o left right ho htakes _ _ ihl ihr =>
    obtain ⟨l, hl⟩ := ihl fun m hm => hpatterns m (by simp [Node.preorder, hm])
    obtain ⟨r, hr⟩ := ihr fun m hm => hpatterns m (by simp [Node.preorder, hm])
    rw [value, ho]
    cases o with
    | and | or =>
      simp only [hl, hr, bind, Except.bind]
      split <;> exact ⟨_, rfl⟩
    | compare | arith =>
      simp only [hl, hr, bind, Except.bind]
      exact ⟨_, rfl⟩
    | like | isIn => cases htakes
  | @like id i op x negated p ho hk hx hp =>
    obtain ⟨l, hl⟩ := hleaf i (.ident hk)
    obtain ⟨-, pieces, -, hpieces, -⟩ := pattern?_term hp
    have hmem : p ∈ (Node.binary id op (.leaf i x) p).preorder := by
      cases p <;> simp [Node.preorder]
    rw [value, ho]
    simp only [hl, like_eq (hpatterns p hmem pieces hpieces), bind, Except.bind]
    exact ⟨_, rfl⟩
  | @isIn id i j op x negated items ho hk hx hne =>
    obtain ⟨l, hl⟩ := hleaf i (.ident hk)
    rw [value, ho]
    simp only [Evaluator.items, hl, bind, Except.bind]
    exact ⟨_, rfl⟩
  | @ternary id op negated first second third ho _ _ _ ih₁ ih₂ ih₃ =>
    obtain ⟨v, hv⟩ := ih₁ fun m hm => hpatterns m (by simp [Node.preorder, hm])
    obtain ⟨low, hlow⟩ := ih₂ fun m hm => hpatterns m (by simp [Node.preorder, hm])
    obtain ⟨high, hhigh⟩ := ih₃ fun m hm => hpatterns m (by simp [Node.preorder, hm])
    rw [value, hv]
    simp only [hlow, hhigh, ho, bind, Except.bind]
    exact ⟨_, rfl⟩
  | @prefixOp id op o operand ho _ ih =>
    obtain ⟨v, hv⟩ := ih fun m hm => hpatterns m (by simp [Node.preorder, hm])
    rw [value, hv]
    simp only [ho, bind, Except.bind]
    exact ⟨_, rfl⟩
  | @postfixOp id i op x negated ho hk hx =>
    obtain ⟨v, hv⟩ := hleaf i (.ident hk)
    rw [value, hv]
    simp only [ho, bind, Except.bind]
    exact ⟨_, rfl⟩

end Evaluator

/-- **Trees of the same shape are not told apart.** The test of shapes is an equivalence of all
trees. Trees of two texts that pass it have the same size; under any hints the same types in the
same places; under these types the same value for every message, whether or not there are type
errors; and the same program. -/
theorem Node.sameShape_sound :
    (∀ n : Node, n.sameShape n = true) ∧
    (∀ m n : Node, m.sameShape n = true → n.sameShape m = true) ∧
    (∀ k m n : Node, k.sameShape m = true → m.sameShape n = true → k.sameShape n = true) ∧
    ∀ (s t : String) (a b : Node), parse s = .ok a → parse t = .ok b → a.sameShape b = true →
      a.size = b.size ∧
      (∀ hints, ∃ typesA typesB,
        a.check hints = .ok typesA ∧ b.check hints = .ok typesB ∧
        a.preorder.map (fun n => typesA.get n.id) = b.preorder.map (fun n => typesB.get n.id) ∧
        ∃ evaluatorA evaluatorB,
          Evaluator.ofTree a = .ok evaluatorA ∧ Evaluator.ofTree b = .ok evaluatorB ∧
          ∀ source, ∃ v, evaluatorA.value typesA source a = .ok v ∧
            evaluatorB.value typesB source b = .ok v) ∧
      ∃ program, a.compile = .ok program ∧ b.compile = .ok program := by
  refine ⟨sameShape_refl, fun _ _ => sameShape_symm, fun _ _ _ => sameShape_trans, ?_⟩
  intro s t a b ha hb hshape
  have htwins := twins_of_sameShape ha hb hshape
  have haccepted := parse_accepted ha
  refine ⟨htwins.size_eq, fun hints => ?_, ?_⟩
  · obtain ⟨types, hcheck⟩ := haccepted.formed.check_ok hints
    obtain ⟨evaluator, hcollect⟩ := Evaluator.collect_ok haccepted.formed {}
    refine ⟨types, types, hcheck, ?_, ?_, evaluator, evaluator, hcollect, ?_, fun source => ?_⟩
    · rw [check, ← htwins.visit_eq]
      exact hcheck
    · have hids := congrArg (List.map types.get) htwins.preorder_id_eq
      rwa [List.map_map, List.map_map] at hids
    · rw [Evaluator.ofTree, ← htwins.collect_eq]
      exact hcollect
    · have hpatterns := (Evaluator.collects_of_collect hcollect).entry haccepted.nodup
      obtain ⟨v, hv⟩ := Evaluator.exists_value haccepted.formed hpatterns types source
      exact ⟨v, hv, by rw [← htwins.value_eq, hv]⟩
  · obtain ⟨program, hprogram, -⟩ := haccepted.formed.compile_writes
    exact ⟨program, hprogram, by rw [← htwins.compile_eq, hprogram]⟩

/-- A number with and without its zeros, and a comparison with blanks and without. -/
theorem Node.sameShape_sound_number :
    ∃ a b, parse "x<1.5" = .ok a ∧ parse "x < 01.50" = .ok b ∧ a.sameShape b = true ∧
      a.size = b.size ∧ ∃ program, a.compile = .ok program ∧ b.compile = .ok program := by
  let x : Token := ⟨.ident, "x", 0⟩
  let less (offset : Nat) : Token := ⟨.less, "<", offset⟩
  let bound (text : String) (offset : Nat) : Token := ⟨.float, text, offset⟩
  let tree (op bound : Token) : Node := .binary 0 op (.leaf 1 x) (.leaf 2 bound)
  have hspells (offset : Nat) (text : String) (offset' : Nat) :
      Spells [.rule .expr] [x, less offset, bound text offset']
        [.binary 0 (less offset) (.leaf 0 x) (.leaf 0 (bound text offset'))] :=
    @Spells.operator [x] [bound text offset'] (less offset) _ _ (.compare .less) rfl rfl
      (.literal rfl) (.literal rfl)
  have htokens : tokenize "x<1.5" = .ok [x, less 1, bound "1.5" 2] := by decide +kernel
  have htokens' : tokenize "x < 01.50" = .ok [x, less 2, bound "01.50" 4] := by decide +kernel
  have ha : parse "x<1.5" = .ok (tree (less 1) (bound "1.5" 2)) := by
    rw [parse, htokens]
    exact Parser.parse_of_spells (by decide) (hspells _ _ _)
  have hb : parse "x < 01.50" = .ok (tree (less 2) (bound "01.50" 4)) := by
    rw [parse, htokens']
    exact Parser.parse_of_spells (by decide) (hspells _ _ _)
  have hshape : (tree (less 1) (bound "1.5" 2)).sameShape
      (tree (less 2) (bound "01.50" 4)) = true := by decide +kernel
  obtain ⟨hsize, -, hprogram⟩ := sameShape_sound.2.2.2 _ _ _ _ ha hb hshape
  exact ⟨_, _, ha, hb, hshape, hsize, hprogram⟩

end MessageSelector
