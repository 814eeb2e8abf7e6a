import MessageSelector.Compilation
import MessageSelector.Proofs.Formed
import MessageSelector.Proofs.TermText
import MessageSelector.Token.Scan

/-!
# The term of a tree

What the compiler writes is a text of one term (`Formed.compile_writes`), which is determined by the
tree (`Node.term`). The term nests a sequence for every operator and two for `BETWEEN`.
-/

namespace MessageSelector

namespace Term

mutual

/-- The greatest number of tuples and lists that nest in a term. -/
def depth : Term → Nat
  | tuple items | list items => depthAll items + 1
  | _ => 0

/-- The greatest number of tuples and lists that nest in one of the terms. -/
def depthAll : List Term → Nat
  | [] => 0
  | t :: rest => max (depth t) (depthAll rest)

end

end Term

namespace Token

def term (t : Token) : Term :=
  match t.kind with
  | .trueWord => .atom "true"
  | .falseWord => .atom "false"
  | .ident => .tuple [.atom "ident", .binary t.text]
  | _ =>
    match t.payload? with
    | some (.string s) => .binary s
    | some (.int n) => .int n
    | some (.float x) => .float x
    | some (.hex n) => Term.Reader.ofNumber (Number.ofUInt64 n)
    | _ => .tuple []

/-- The term of a token whose floating point number is replaced by another one. -/
def termBy (f : Float → Float) (t : Token) : Term :=
  match t.payload? with
  | some (.float x) => .float (f x)
  | _ => t.term

/-- A token that is no number without a value. -/
def Valued (t : Token) : Prop :=
  Scan.stopsAt t = false

/-- Writing the number of a token as a numeral and reading the numeral gives the number back. -/
def Readable (t : Token) : Prop :=
  ∀ x, t.payload? = some (.float x) →
    Decimal.float? (Decimal.FloatFormat.program.write x).toList = some x

/-- Writing the number of a token as a numeral and reading the numeral gives the replacement. -/
def ReadBy (f : Float → Float) (t : Token) : Prop :=
  ∀ x, t.payload? = some (.float x) →
    Decimal.float? (Decimal.FloatFormat.program.write x).toList = some (f x)

/-- The literals, with what they stand for. -/
inductive Literal (t : Token) : Prop
  | trueWord : t.kind = .trueWord → Literal t
  | falseWord : t.kind = .falseWord → Literal t
  | ident : t.kind = .ident → Literal t
  | string (s : String) : t.kind = .string → t.payload? = some (.string s) → Literal t
  | int (n : Int64) : t.kind = .int → t.payload? = some (.int n) → Literal t
  | float (x : Float) : t.kind = .float → t.payload? = some (.float x) → x.isFinite → Literal t
  | hex (n : UInt64) : t.kind = .hex → t.payload? = some (.hex n) → Literal t

/-- An operand with a value is a literal. -/
theorem Valued.literal {t : Token} (h : t.Valued) (hk : t.kind.isOperand) : t.Literal := by
  have hpayload : t.kind.isNumeric → ∃ p, t.payload? = some p := by
    intro hnumeric
    rw [Valued, Scan.stopsAt, hnumeric, Bool.true_and] at h
    exact Option.isSome_iff_exists.1 (by simpa using h)
  cases hkind : t.kind <;> rw [hkind] at hk hpayload
  case trueWord => exact .trueWord hkind
  case falseWord => exact .falseWord hkind
  case ident => exact .ident hkind
  case string => exact .string _ hkind (by rw [payload?, hkind])
  case int =>
    obtain ⟨p, hp⟩ := hpayload rfl
    have hp' := hp
    rw [payload?, hkind] at hp'
    obtain ⟨n, -, rfl⟩ := Option.map_eq_some_iff.1 hp'
    exact .int n hkind hp
  case hex =>
    obtain ⟨p, hp⟩ := hpayload rfl
    have hp' := hp
    rw [payload?, hkind] at hp'
    obtain ⟨n, -, rfl⟩ := Option.map_eq_some_iff.1 hp'
    exact .hex n hkind hp
  case float =>
    obtain ⟨p, hp⟩ := hpayload rfl
    have hp' := hp
    rw [payload?, hkind] at hp'
    obtain ⟨x, hx, rfl⟩ := Option.map_eq_some_iff.1 hp'
    exact .float x hkind hp (Option.filter_eq_some_iff.1 hx).2
  all_goals cases hk

theorem kind_of_float {t : Token} {x : Float} (h : t.payload? = some (.float x)) :
    t.kind = .float := by
  rw [payload?] at h
  cases hk : t.kind <;> rw [hk] at h <;> simp at h ⊢

/-- A floating point payload is finite. -/
theorem isFinite_of_payload? {t : Token} {x : Float} (h : t.payload? = some (.float x)) :
    x.isFinite := by
  have hk := kind_of_float h
  rw [payload?, hk] at h
  obtain ⟨y, hy, hxy⟩ := Option.map_eq_some_iff.1 h
  cases hxy
  exact (Option.filter_eq_some_iff.1 hy).2

theorem term_of_float {t : Token} {x : Float} (h : t.payload? = some (.float x)) :
    t.term = .float x := by
  rw [term, kind_of_float h, h]

theorem termBy_cases (f : Float → Float) (t : Token) :
    (∃ x, t.payload? = some (.float x) ∧ t.termBy f = .float (f x)) ∨ t.termBy f = t.term := by
  rw [termBy]
  split
  · next x hpayload => exact .inl ⟨x, hpayload, rfl⟩
  · exact .inr rfl

theorem termBy_of_ne_float {f : Float → Float} {t : Token} (h : t.kind ≠ .float) :
    t.termBy f = t.term := by
  rcases t.termBy_cases f with ⟨x, hpayload, -⟩ | hterm
  · exact absurd (kind_of_float hpayload) h
  · exact hterm

theorem termBy_self (t : Token) : t.termBy (fun x => x) = t.term := by
  rcases t.termBy_cases (fun x => x) with ⟨x, hpayload, hterm⟩ | hterm
  · rw [hterm, term_of_float hpayload]
  · exact hterm

theorem depth_termBy (f : Float → Float) (t : Token) : (t.termBy f).depth = t.term.depth := by
  rcases t.termBy_cases f with ⟨x, hpayload, hterm⟩ | hterm
  · simp only [hterm, term_of_float hpayload, Term.depth]
  · rw [hterm]

end Token

namespace Node

def term : Node → Term
  | leaf _ token => token.term
  | binary _ op left right =>
    .tuple [.atom ((op.kind.binary?.map BinaryOperator.tag).getD ""), left.term, right.term]
  | ternary _ op first second third =>
    .tuple [.atom (if op.kind.ternaryNegated? = some true then "not_between" else "between"),
      first.term, .tuple [.atom "range", second.term, third.term]]
  | prefixOp _ op operand =>
    .tuple [.atom ((op.kind.prefix?.map PrefixOperator.tag).getD ""), operand.term]
  | postfixOp _ op operand =>
    .tuple [.atom (if op.kind.postfixNegated? = some true then "not_null" else "is_null"),
      operand.term]
  | pattern _ text => .tuple [text.term, .atom "no_escape"]
  | escaped _ text escape => .tuple [text.term, escape.term]
  | list _ items => .list (items.map .binary)

/-- The term of a tree whose floating point numbers are replaced by others. -/
def termBy (f : Float → Float) : Node → Term
  | leaf _ token => token.termBy f
  | binary _ op left right =>
    .tuple [.atom ((op.kind.binary?.map BinaryOperator.tag).getD ""), left.termBy f, right.termBy f]
  | ternary _ op first second third =>
    .tuple [.atom (if op.kind.ternaryNegated? = some true then "not_between" else "between"),
      first.termBy f, .tuple [.atom "range", second.termBy f, third.termBy f]]
  | prefixOp _ op operand =>
    .tuple [.atom ((op.kind.prefix?.map PrefixOperator.tag).getD ""), operand.termBy f]
  | postfixOp _ op operand =>
    .tuple [.atom (if op.kind.postfixNegated? = some true then "not_null" else "is_null"),
      operand.termBy f]
  -- There are no numbers in patterns and lists.
  | pattern id text => (pattern id text).term
  | escaped id text escape => (escaped id text escape).term
  | list id items => (list id items).term

theorem termBy_self (n : Node) : n.termBy (fun x => x) = n.term := by
  induction n with
  | leaf _ token => exact token.termBy_self
  | binary _ _ _ _ ihl ihr => rw [termBy, term, ihl, ihr]
  | ternary _ _ _ _ _ ih₁ ih₂ ih₃ => rw [termBy, term, ih₁, ih₂, ih₃]
  | prefixOp _ _ _ ih | postfixOp _ _ _ ih => rw [termBy, term, ih]
  | pattern | escaped | list => rfl

theorem depth_termBy (f : Float → Float) (n : Node) : (n.termBy f).depth = n.term.depth := by
  induction n with
  | leaf _ token => exact token.depth_termBy f
  | binary _ _ _ _ ihl ihr => simp only [termBy, term, Term.depth, Term.depthAll, ihl, ihr]
  | ternary _ _ _ _ _ ih₁ ih₂ ih₃ =>
    simp only [termBy, term, Term.depth, Term.depthAll, ih₁, ih₂, ih₃]
  | prefixOp _ _ _ ih | postfixOp _ _ _ ih =>
    simp only [termBy, term, Term.depth, Term.depthAll, ih]
  | pattern | escaped | list => rfl

theorem PatternFormed.termBy {ok : Token → Prop} {p : Node} (h : p.PatternFormed ok)
    (f : Float → Float) : p.termBy f = p.term := by
  cases h <;> rfl

end Node

/-! ## The compiler writes the term -/

namespace Compilation

open Term (Written AllWritten IsNumeral)

variable {room : Nat}

theorem written_tagged {tag : String} {texts : List String} {ts : List Term}
    (htag : '\'' ∉ tag.toList) (h : AllWritten room texts ts) :
    Written IsNumeral (room + 1) (tagged tag texts).toList (.term (.tuple (.atom tag :: ts))) :=
  Term.written_tupleText (.cons (Term.written_atomText htag) h)

/-- The text is written for the term, with as many sequences nesting as there are in the term. -/
def Writes (text : String) (t : Term) : Prop :=
  ∀ room, t.depth ≤ room → Written IsNumeral room text.toList (.term t)

theorem writes_tagged {tag : String} {texts : List String} {ts : List Term}
    (htag : '\'' ∉ tag.toList) (h : List.Forall₂ Writes texts ts) :
    Writes (tagged tag texts) (.tuple (.atom tag :: ts)) := by
  rintro (_ | room) hroom
  · simp [Term.depth] at hroom
  · refine written_tagged htag ?_
    simp only [Term.depth, Term.depthAll, Nat.zero_max, Nat.add_le_add_iff_right] at hroom
    induction h with
    | nil => exact .nil
    | cons ht _ ih =>
      simp only [Term.depthAll, Nat.max_le] at hroom
      exact .cons (ht room hroom.1) (ih hroom.2)

theorem leaf_writes {t : Token} (h : t.Literal) :
    ∃ text, leaf t = .ok text ∧ ∀ f, t.ReadBy f → Writes text (t.termBy f) := by
  -- Only the numeral of a floating point number can be read as something else.
  have hother {text : String} (hk : t.kind ≠ .float) (hwrites : Writes text t.term)
      (f : Float → Float) (_ : t.ReadBy f) : Writes text (t.termBy f) := by
    rwa [Token.termBy_of_ne_float hk]
  cases h with
  | trueWord hk =>
    refine ⟨_, by rw [leaf, hk], hother (hk ▸ by decide) fun room _ => ?_⟩
    rw [Token.term, hk]
    exact Term.written_atomText (by decide)
  | falseWord hk =>
    refine ⟨_, by rw [leaf, hk], hother (hk ▸ by decide) fun room _ => ?_⟩
    rw [Token.term, hk]
    exact Term.written_atomText (by decide)
  | ident hk =>
    refine ⟨_, by rw [leaf, hk], hother (hk ▸ by decide) ?_⟩
    rw [Token.term, hk]
    exact writes_tagged (by decide) (.cons (fun room _ => Term.written_binaryText t.text) .nil)
  | string s hk hs =>
    refine ⟨Term.binaryText s, by rw [leaf, hk, hs], hother (hk ▸ by decide) fun room _ => ?_⟩
    rw [Token.term, hk, hs]
    exact Term.written_binaryText s
  | int n hk hn =>
    refine ⟨Term.integerText n.toInt, by rw [leaf, hk, hn],
      hother (hk ▸ by decide) fun room _ => ?_⟩
    rw [Token.term, hk, hn]
    exact Term.written_integerText n
  | float x hk hx hfinite =>
    refine ⟨Decimal.FloatFormat.program.write x, ?_, fun f hread room _ => ?_⟩
    · simp [leaf, hk, hx, Term.floatText?, hfinite]
    · rw [Token.termBy, hx]
      exact Term.written_float hfinite (hread x hx)
  | hex n hk hn =>
    refine ⟨Term.integerText n.toNat, by rw [leaf, hk, hn],
      hother (hk ▸ by decide) fun room _ => ?_⟩
    rw [Token.term, hk, hn]
    exact Term.written_word n

theorem stringLeaf_writes {t : Token} {i : Nat} (hk : t.kind = .string) :
    ∃ text, stringLeaf (.leaf i t) = .ok text ∧ Writes text t.term := by
  refine ⟨Term.binaryText (Text.unquote t.text), ?_, fun room _ => ?_⟩
  · rw [stringLeaf, Node.string?, Token.string?_of_kind hk]
  · rw [Token.term, Token.payload?, hk]
    exact Term.written_binaryText _

theorem writes_pair {first second : String} {t u : Term} (ht : Writes first t)
    (hu : Writes second u) : Writes (Term.tupleText [first, second]) (.tuple [t, u]) := by
  rintro (_ | room) hroom
  · simp [Term.depth] at hroom
  · simp only [Term.depth, Term.depthAll, Nat.add_le_add_iff_right, Nat.max_le] at hroom
    exact Term.written_tupleText (.cons (ht room hroom.1) (.cons (hu room hroom.2.1) .nil))

theorem pattern_writes {ok : Token → Prop} {p : Node} (h : p.PatternFormed ok) :
    ∃ text, pattern p = .ok text ∧ Writes text p.term := by
  cases h with
  | @pattern id i text hk _ =>
    obtain ⟨p, hp, hwrites⟩ := @stringLeaf_writes text i hk
    refine ⟨Term.tupleText [p, Term.atomText "no_escape"], by rw [pattern, hp]; rfl, ?_⟩
    exact writes_pair hwrites fun room _ => Term.written_atomText (by decide)
  | @escaped id i j text escape hk _ hk' _ =>
    obtain ⟨p, hp, hwrites⟩ := @stringLeaf_writes text i hk
    obtain ⟨e, he, hwrites'⟩ := @stringLeaf_writes escape j hk'
    exact ⟨Term.tupleText [p, e], by rw [pattern, hp, he]; rfl, writes_pair hwrites hwrites'⟩

theorem list_writes (i : Nat) (items : List String) :
    ∃ text, list (.list i items) = .ok text ∧ Writes text (Node.list i items).term := by
  refine ⟨_, rfl, ?_⟩
  rintro (_ | room) hroom
  · simp [Node.term, Term.depth] at hroom
  · refine Term.written_listText ?_
    induction items with
    | nil => exact .nil
    | cons s items ih =>
      simp only [Node.term, List.map_cons, Term.depth, Term.depthAll, Nat.zero_max] at hroom ih
      exact .cons (Term.written_binaryText s) (ih hroom)

end Compilation

theorem BinaryOperator.not_mem_tag (op : BinaryOperator) : '\'' ∉ op.tag.toList := by
  rcases op with _ | _ | op | op | negated | negated
  case compare | arith => cases op <;> decide
  case like | isIn => cases negated <;> decide
  all_goals decide

theorem PrefixOperator.not_mem_tag (op : PrefixOperator) : '\'' ∉ op.tag.toList := by
  cases op <;> decide

namespace Node

open Compilation (Writes writes_tagged)

/-- Every number of the tree is read as it is written. -/
def Readable (n : Node) : Prop :=
  ∀ id t, leaf id t ∈ n.preorder → t.Readable

/-- The replacements are what the numbers of the tree are read as. -/
def ReadBy (f : Float → Float) (n : Node) : Prop :=
  ∀ id t, leaf id t ∈ n.preorder → t.ReadBy f

section

variable {id : Nat} {op : Token} {negated : Bool} {left right operand : Node} {l r v : String}

theorem compile_binary {o : BinaryOperator} (ho : op.kind.binary? = some o)
    (htakes : o.takesExpressions) (hl : left.compile = .ok l) (hr : right.compile = .ok r) :
    (binary id op left right).compile = .ok (Compilation.tagged o.tag [l, r]) := by
  rw [compile, ho, hl, hr]
  cases o <;> first | rfl | cases htakes

theorem compile_like (ho : op.kind.binary? = some (.like negated)) (hl : left.compile = .ok l)
    (hr : Compilation.pattern right = .ok r) : (binary id op left right).compile =
      .ok (Compilation.tagged (BinaryOperator.like negated).tag [l, r]) := by
  rw [compile, ho]
  simp only [hl, hr]
  rfl

theorem compile_isIn (ho : op.kind.binary? = some (.isIn negated)) (hl : left.compile = .ok l)
    (hr : Compilation.list right = .ok r) : (binary id op left right).compile =
      .ok (Compilation.tagged (BinaryOperator.isIn negated).tag [l, r]) := by
  rw [compile, ho]
  simp only [hl, hr]
  rfl

theorem compile_ternary {first second third : Node} {low high : String}
    (ho : op.kind.ternaryNegated? = some negated) (h₁ : first.compile = .ok v)
    (h₂ : second.compile = .ok low) (h₃ : third.compile = .ok high) :
    (ternary id op first second third).compile =
      .ok (Compilation.tagged (if negated then "not_between" else "between")
        [v, Compilation.tagged "range" [low, high]]) := by
  rw [compile, ho, h₁, h₂, h₃]
  rfl

theorem compile_prefixOp {o : PrefixOperator} (ho : op.kind.prefix? = some o)
    (hv : operand.compile = .ok v) :
    (prefixOp id op operand).compile = .ok (Compilation.tagged o.tag [v]) := by
  rw [compile, ho, hv]
  rfl

theorem compile_postfixOp (ho : op.kind.postfixNegated? = some negated)
    (hv : operand.compile = .ok v) : (postfixOp id op operand).compile =
      .ok (Compilation.tagged (if negated then "not_null" else "is_null") [v]) := by
  rw [compile, ho]
  simp only [hv]
  rfl

end

/-- **The compiler writes the term of the tree**, with the numbers that its numerals are read as. -/
theorem Formed.compile_writes_by {n : Node} (h : n.Formed Token.Valued) :
    ∃ text, n.compile = .ok text ∧ ∀ f, n.ReadBy f → Writes text (n.termBy f) := by
  induction h with
  | @leaf id t hk ht =>
    obtain ⟨text, htext, hwrites⟩ := Compilation.leaf_writes (ht.literal hk)
    exact ⟨text, htext, fun f hread => hwrites f (hread id t List.mem_cons_self)⟩
  | @binary id op o left right ho htakes _ _ ihl ihr =>
    obtain ⟨l, hl, hwritesl⟩ := ihl
    obtain ⟨r, hr, hwritesr⟩ := ihr
    refine ⟨_, compile_binary ho htakes hl hr, fun f hread => ?_⟩
    have hleft := hwritesl f fun id t ht => hread id t (by simp [preorder, ht])
    have hright := hwritesr f fun id t ht => hread id t (by simp [preorder, ht])
    rw [termBy, ho]
    exact writes_tagged o.not_mem_tag (.cons hleft (.cons hright .nil))
  | @like id i op x negated p ho hk hx hp =>
    obtain ⟨l, hl, hwritesl⟩ := Compilation.leaf_writes (.ident hk)
    obtain ⟨r, hr, hwritesr⟩ := Compilation.pattern_writes hp
    refine ⟨_, compile_like ho hl hr, fun f hread => ?_⟩
    have hleft := hwritesl f (hread i x (by simp [preorder]))
    rw [termBy, ho, hp.termBy]
    exact writes_tagged (BinaryOperator.not_mem_tag _) (.cons hleft (.cons hwritesr .nil))
  | @isIn id i j op x negated items ho hk hx hne =>
    obtain ⟨l, hl, hwritesl⟩ := Compilation.leaf_writes (.ident hk)
    obtain ⟨r, hr, hwritesr⟩ := Compilation.list_writes j items
    refine ⟨_, compile_isIn ho hl hr, fun f hread => ?_⟩
    have hleft := hwritesl f (hread i x (by simp [preorder]))
    rw [termBy, ho]
    exact writes_tagged (BinaryOperator.not_mem_tag _) (.cons hleft (.cons hwritesr .nil))
  | @ternary id op negated first second third ho _ _ _ ih₁ ih₂ ih₃ =>
    obtain ⟨v, hv, hwrites₁⟩ := ih₁
    obtain ⟨low, hlow, hwrites₂⟩ := ih₂
    obtain ⟨high, hhigh, hwrites₃⟩ := ih₃
    refine ⟨_, compile_ternary ho hv hlow hhigh, fun f hread => ?_⟩
    have hfirst := hwrites₁ f fun id t ht => hread id t (by simp [preorder, ht])
    have hsecond := hwrites₂ f fun id t ht => hread id t (by simp [preorder, ht])
    have hthird := hwrites₃ f fun id t ht => hread id t (by simp [preorder, ht])
    have hrange : Writes (Compilation.tagged "range" [low, high])
        (.tuple [.atom "range", second.termBy f, third.termBy f]) :=
      writes_tagged (by decide) (.cons hsecond (.cons hthird .nil))
    have hwrites := @writes_tagged (if negated then "not_between" else "between") _ _
      (by cases negated <;> decide) (.cons hfirst (.cons hrange .nil))
    simpa [termBy, ho] using hwrites
  | @prefixOp id op o operand ho _ ih =>
    obtain ⟨v, hv, hwrites⟩ := ih
    refine ⟨_, compile_prefixOp ho hv, fun f hread => ?_⟩
    have hoperand := hwrites f fun id t ht => hread id t (by simp [preorder, ht])
    rw [termBy, ho]
    exact writes_tagged o.not_mem_tag (.cons hoperand .nil)
  | @postfixOp id i op x negated ho hk hx =>
    obtain ⟨v, hv, hwrites⟩ := Compilation.leaf_writes (.ident hk)
    refine ⟨_, compile_postfixOp ho hv, fun f hread => ?_⟩
    have hoperand := hwrites f (hread i x (by simp [preorder]))
    have hwrites := @writes_tagged (if negated then "not_null" else "is_null") _ _
      (by cases negated <;> decide) (.cons hoperand .nil)
    simpa [termBy, ho] using hwrites

/-- **The compiler writes the term of the tree.** -/
theorem Formed.compile_writes {n : Node} (h : n.Formed Token.Valued) :
    ∃ text, n.compile = .ok text ∧ (n.Readable → Writes text n.term) := by
  obtain ⟨text, htext, hwrites⟩ := h.compile_writes_by
  refine ⟨text, htext, fun hread => ?_⟩
  rw [← n.termBy_self]
  exact hwrites (fun x => x) hread

end Node

end MessageSelector
