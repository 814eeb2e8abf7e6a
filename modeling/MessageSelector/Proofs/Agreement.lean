import MessageSelector.Proofs.Tables
import MessageSelector.Proofs.Translation

/-!
# Agreement

A formed tree without type errors has a value for every message, and its term has the same one
(`Evaluator.value_agrees`), by induction on the tree: leaves agree (`leaf_agrees`), and for each
kind of node the evaluator and the term apply one operation to the values of the operands
(`value_binary`, `value_like`, `value_isIn`, `value_ternary`).
-/

namespace MessageSelector

variable {types : TypeTable} {evaluator : Evaluator} {source : PropertySource}

theorem Value.conform_of_ne {type : ExprType} (h : type ≠ .invalid) (v : Value) :
    v.conform type = v := by
  cases type <;> first | rfl | exact absurd rfl h

theorem Term.Dyadic.ofTag?_tag (op : BinaryOperator) : ofTag? op.tag = some (.binary op) := by
  rcases op with _ | _ | op | op | negated | negated
  case compare | arith => cases op <;> decide
  case like | isIn => cases negated <;> decide
  all_goals decide

theorem Term.Dyadic.ofTag?_between (negated : Bool) :
    ofTag? (if negated then "not_between" else "between") = some (.between negated) := by
  cases negated <;> decide

theorem Term.Unary.ofTag?_prefix (op : PrefixOperator) : ofTag? op.tag = some (.before op) := by
  cases op <;> decide

theorem Term.Unary.ofTag?_nullTest (negated : Bool) :
    ofTag? (if negated then "not_null" else "is_null") = some (.nullTest negated) := by
  cases negated <;> decide

/-! ## Operators without short cuts -/

/-- The value of an operator between two expressions. -/
def BinaryOperator.value (op : BinaryOperator) (l r : Value) : Value :=
  match op with
  | and => l.and r
  | or => l.or r
  | compare c => l.compare c r
  | arith a => l.arith a r
  | like _ | isIn _ => .unknown

/-- A false operand decides a conjunction. -/
theorem Value.and_of_false {l : Value} (h : l.toBool? = some false) (r : Value) : l.and r = l := by
  cases l with
  | bool b =>
    cases Option.some.inj h
    rfl
  | unknown | string | number | list => cases h

/-- A true operand decides a disjunction. -/
theorem Value.or_of_true {l : Value} (h : l.toBool? = some true) (r : Value) : l.or r = l := by
  cases l with
  | bool b =>
    cases Option.some.inj h
    rfl
  | unknown | string | number | list => cases h

namespace Term

attribute [local simp] value

/-- A tuple with one operand, unless it is a property, applies its operator. -/
theorem value_unary {tag : String} {op : Unary} (h : Unary.ofTag? tag = some op) {t : Term}
    {v : Value} (ht : t.value source = .ok v) :
    (Term.tuple [.atom tag, t]).value source = .ok (op.apply v) := by
  have hident : tag ≠ "ident" := by
    rintro rfl
    cases h
  rw [value]
  · simp only [h, ht]
    rfl
  · exact fun _ htag _ => hident htag

theorem value_binary {op : BinaryOperator} (hop : op.takesExpressions) {left right : Term}
    {l r : Value} (hl : left.value source = .ok l) (hr : right.value source = .ok r) :
    (Term.tuple [.atom op.tag, left, right]).value source = .ok (op.value l r) := by
  rw [value, Dyadic.ofTag?_tag]
  cases op with
  | and =>
    simp only [hl, hr, bind, Except.bind, BinaryOperator.value]
    split
    · next hfalse => rw [Value.and_of_false hfalse]; rfl
    · rfl
  | or =>
    simp only [hl, hr, bind, Except.bind, BinaryOperator.value]
    split
    · next htrue => rw [Value.or_of_true htrue]; rfl
    · rfl
  | compare c | arith a =>
    simp only [hl, hr, bind, Except.bind, BinaryOperator.value]
    rfl
  | like | isIn => cases hop

theorem value_between {negated : Bool} {first second third : Term} {v low high : Value}
    (h₁ : first.value source = .ok v) (h₂ : second.value source = .ok low)
    (h₃ : third.value source = .ok high) :
    (Term.tuple [.atom (if negated then "not_between" else "between"), first,
      .tuple [.atom "range", second, third]]).value source =
        .ok ((v.between low high).negateIf negated) := by
  rw [value, Dyadic.ofTag?_between]
  simp only [h₁, h₂, h₃, bind, Except.bind]
  rfl

theorem value_like {negated : Bool} {left : Term} {l : Value} {items : List Term}
    {pieces : Option (List Like.Piece)} (hl : left.value source = .ok l)
    (hpieces : pattern? (.tuple items) = some pieces) :
    (Term.tuple [.atom (BinaryOperator.like negated).tag, left, .tuple items]).value source =
      .ok ((like l pieces).negateIf negated) := by
  rw [value, Dyadic.ofTag?_tag]
  simp only [hl, hpieces, bind, Except.bind]
  rfl

theorem value_ofNumber (n : Number) : (Reader.ofNumber n).value source = .ok (.number n) := by
  cases n <;> simp [Reader.ofNumber]

theorem strings?_binary (items : List String) : strings? (items.map .binary) = some items := by
  induction items with
  | nil => rfl
  | cons s items ih => rw [List.map_cons, strings?, ih]; rfl

theorem value_isIn {negated : Bool} {left : Term} {l : Value} (items : List String)
    (hl : left.value source = .ok l) :
    (Term.tuple [.atom (BinaryOperator.isIn negated).tag, left,
      .list (items.map .binary)]).value source = .ok ((l.isIn items).negateIf negated) := by
  rw [value, Dyadic.ofTag?_tag]
  simp only [hl, strings, strings?_binary, bind, Except.bind]
  rfl

end Term

/-! ## Trees and terms -/

namespace Evaluator

attribute [local simp] value

theorem value_binary {op : BinaryOperator} (hop : op.takesExpressions) {id : Nat} {token : Token}
    (htoken : token.kind.binary? = some op) (htypes : ∀ i, types.get i ≠ .invalid)
    {left right : Node} {l r : Value} (hl : evaluator.value types source left = .ok l)
    (hr : evaluator.value types source right = .ok r) :
    evaluator.value types source (.binary id token left right) = .ok (op.value l r) := by
  rw [value, htoken]
  cases op with
  | and =>
    simp only [hl, hr, bind, Except.bind, BinaryOperator.value, Value.conform_of_ne (htypes id)]
    split
    · next hfalse => rw [Value.and_of_false hfalse]; rfl
    · rfl
  | or =>
    simp only [hl, hr, bind, Except.bind, BinaryOperator.value, Value.conform_of_ne (htypes id)]
    split
    · next htrue => rw [Value.or_of_true htrue]; rfl
    · rfl
  | compare c | arith a =>
    simp only [hl, hr, bind, Except.bind, BinaryOperator.value, Value.conform_of_ne (htypes id)]
    rfl
  | like | isIn => cases hop

theorem value_leaf {id : Nat} {token : Token} (htypes : ∀ i, types.get i ≠ .invalid) {v : Value}
    (hv : leafValue source token = .ok v) :
    evaluator.value types source (.leaf id token) = .ok v := by
  rw [value, hv]
  simp only [bind, Except.bind, Value.conform_of_ne (htypes id)]
  rfl

theorem value_like {negated : Bool} {id : Nat} {token : Token}
    (htoken : token.kind.binary? = some (.like negated)) (htypes : ∀ i, types.get i ≠ .invalid)
    {left pattern : Node} {l m : Value} (hl : evaluator.value types source left = .ok l)
    (hm : evaluator.like l pattern.id = .ok m) :
    evaluator.value types source (.binary id token left pattern) = .ok (m.negateIf negated) := by
  rw [value, htoken]
  simp only [hl, hm, bind, Except.bind, Value.conform_of_ne (htypes id)]
  rfl

theorem value_isIn {negated : Bool} {id i : Nat} {token : Token}
    (htoken : token.kind.binary? = some (.isIn negated)) (htypes : ∀ i, types.get i ≠ .invalid)
    {left : Node} {items : List String} {l : Value}
    (hl : evaluator.value types source left = .ok l) :
    evaluator.value types source (.binary id token left (.list i items)) =
      .ok ((l.isIn items).negateIf negated) := by
  rw [value, htoken]
  simp only [Evaluator.items, hl, bind, Except.bind, Value.conform_of_ne (htypes id)]
  rfl

theorem value_ternary {negated : Bool} {id : Nat} {token : Token}
    (htoken : token.kind.ternaryNegated? = some negated) (htypes : ∀ i, types.get i ≠ .invalid)
    {first second third : Node} {v low high : Value}
    (h₁ : evaluator.value types source first = .ok v)
    (h₂ : evaluator.value types source second = .ok low)
    (h₃ : evaluator.value types source third = .ok high) :
    evaluator.value types source (.ternary id token first second third) =
      .ok ((v.between low high).negateIf negated) := by
  rw [value, h₁]
  simp only [h₂, h₃, htoken, bind, Except.bind, Value.conform_of_ne (htypes id)]
  rfl

theorem value_prefixOp {op : PrefixOperator} {id : Nat} {token : Token}
    (htoken : token.kind.prefix? = some op) (htypes : ∀ i, types.get i ≠ .invalid)
    {operand : Node} {v : Value} (hv : evaluator.value types source operand = .ok v) :
    evaluator.value types source (.prefixOp id token operand) = .ok (v.applyPrefix op) := by
  rw [value, hv]
  simp only [htoken, bind, Except.bind, Value.conform_of_ne (htypes id)]
  rfl

theorem value_postfixOp {negated : Bool} {id : Nat} {token : Token}
    (htoken : token.kind.postfixNegated? = some negated) (htypes : ∀ i, types.get i ≠ .invalid)
    {operand : Node} {v : Value} (hv : evaluator.value types source operand = .ok v) :
    evaluator.value types source (.postfixOp id token operand) = .ok (v.nullTest negated) := by
  rw [value, hv]
  simp only [htoken, bind, Except.bind, Value.conform_of_ne (htypes id)]
  rfl

/-- A literal or an identifier has the value of its term. -/
theorem leaf_agrees {t : Token} (h : t.Literal) (source : PropertySource) :
    ∃ v, leafValue source t = .ok v ∧ t.term.value source = .ok v := by
  cases h with
  | trueWord hk => exact ⟨.bool true, by rw [leafValue, hk], by rw [Token.term, hk]; rfl⟩
  | falseWord hk => exact ⟨.bool false, by rw [leafValue, hk], by rw [Token.term, hk]; rfl⟩
  | ident hk =>
    refine ⟨source.value t.text, by rw [leafValue, hk], ?_⟩
    rw [Token.term, hk]
    simp only [Term.value]
  | string s hk hs =>
    refine ⟨.string s, by rw [leafValue, hk, hs], ?_⟩
    rw [Token.term, hk, hs]
    simp only [Term.value]
  | int n hk hn =>
    refine ⟨.number (.int n), by rw [leafValue, hk, hn], ?_⟩
    rw [Token.term, hk, hn]
    simp only [Term.value]
  | float x hk hx _ =>
    refine ⟨.number (.float x), by rw [leafValue, hk, hx], ?_⟩
    rw [Token.term, hk, hx]
    simp only [Term.value]
  | hex n hk hn =>
    refine ⟨.number (Number.ofUInt64 n), by rw [leafValue, hk, hn], ?_⟩
    rw [Token.term, hk, hn]
    exact Term.value_ofNumber _

/-- The pair of a pattern is read as the pieces of the pattern. -/
theorem pattern?_term {ok : Token → Prop} {p : Node} (h : p.PatternFormed ok) :
    ∃ items pieces, p.term = .tuple items ∧ p.pieces? = some pieces ∧
      Term.pattern? (.tuple items) = some pieces := by
  have hterm {t : Token} (hk : t.kind = .string) : t.term = .binary (Text.unquote t.text) := by
    rw [Token.term, Token.payload?, hk]
  cases h with
  | @pattern id i text hk _ =>
    refine ⟨_, Like.compile? (Text.unquote text.text) none, rfl, ?_, ?_⟩
    · rw [Node.pieces?, Node.string?, Token.string?_of_kind hk, Option.map_some]
    · rw [Node.term, hterm hk, Term.pattern?]
  | @escaped id i j text escape hk _ hk' _ =>
    refine ⟨_, Like.compile? (Text.unquote text.text) (some (Text.unquote escape.text)), rfl,
      ?_, ?_⟩
    · rw [Node.pieces?, Node.string?, Node.string?, Token.string?_of_kind hk,
        Token.string?_of_kind hk', Option.bind_some, Option.map_some]
    · rw [Node.term, Node.term, hterm hk, hterm hk', Term.pattern?]

/-- Matching against a pattern of the table is matching against its pieces. -/
theorem like_eq {subject : Value} {id : Nat} {pieces : Option (List Like.Piece)}
    (h : evaluator.patterns[id]? = some pieces) :
    evaluator.like subject id = .ok (Term.like subject pieces) := by
  cases pieces <;> cases subject <;> simp only [like, h, Term.like]

/-- **A formed tree has a value, and its term has the same one**, if the tree has no type error and
the patterns are in the table. -/
theorem value_agrees {n : Node} (h : n.Formed Token.Valued)
    (htypes : ∀ i, types.get i ≠ .invalid)
    (hpatterns : ∀ m ∈ n.preorder, ∀ pieces, m.pieces? = some pieces →
      evaluator.patterns[m.id]? = some pieces) (source : PropertySource) :
    ∃ v, evaluator.value types source n = .ok v ∧ n.term.value source = .ok v := by
  induction h with
  | @leaf id t hk ht =>
    obtain ⟨v, hv, hterm⟩ := leaf_agrees (ht.literal hk) source
    exact ⟨v, value_leaf htypes hv, hterm⟩
  | @binary id op o left right ho htakes _ _ ihl ihr =>
    obtain ⟨l, hl, hterml⟩ := ihl fun m hm => hpatterns m (by simp [Node.preorder, hm])
    obtain ⟨r, hr, htermr⟩ := ihr fun m hm => hpatterns m (by simp [Node.preorder, hm])
    refine ⟨o.value l r, value_binary htakes ho htypes hl hr, ?_⟩
    rw [Node.term, ho]
    exact Term.value_binary htakes hterml htermr
  | @like id i op x negated p ho hk hx hp =>
    -- The table holds the pieces of the pattern, and its pair is read as the same pieces.
    obtain ⟨l, hl, hterml⟩ := leaf_agrees (.ident hk) source
    obtain ⟨items, pieces, hterm, hpieces, hread⟩ := pattern?_term hp
    have hmem : p ∈ (Node.binary id op (.leaf i x) p).preorder := by
      cases p <;> simp [Node.preorder]
    refine ⟨(Term.like l pieces).negateIf negated, ?_, ?_⟩
    · exact value_like ho htypes (value_leaf htypes hl) (like_eq (hpatterns p hmem pieces hpieces))
    · rw [Node.term, ho, hterm]
      exact Term.value_like hterml hread
  | @isIn id i j op x negated items ho hk hx hne =>
    obtain ⟨l, hl, hterml⟩ := leaf_agrees (.ident hk) source
    refine ⟨_, value_isIn ho htypes (value_leaf htypes hl), ?_⟩
    rw [Node.term, ho]
    exact Term.value_isIn items hterml
  | @ternary id op negated first second third ho _ _ _ ih₁ ih₂ ih₃ =>
    obtain ⟨v, hv, hterm₁⟩ := ih₁ fun m hm => hpatterns m (by simp [Node.preorder, hm])
    obtain ⟨low, hlow, hterm₂⟩ := ih₂ fun m hm => hpatterns m (by simp [Node.preorder, hm])
    obtain ⟨high, hhigh, hterm₃⟩ := ih₃ fun m hm => hpatterns m (by simp [Node.preorder, hm])
    refine ⟨_, value_ternary ho htypes hv hlow hhigh, ?_⟩
    have hvalue := @Term.value_between source negated _ _ _ _ _ _ hterm₁ hterm₂ hterm₃
    simpa [Node.term, ho] using hvalue
  | @prefixOp id op o operand ho _ ih =>
    obtain ⟨v, hv, hterm⟩ := ih fun m hm => hpatterns m (by simp [Node.preorder, hm])
    refine ⟨_, value_prefixOp ho htypes hv, ?_⟩
    rw [Node.term, ho]
    exact Term.value_unary (Term.Unary.ofTag?_prefix o) hterm
  | @postfixOp id i op x negated ho hk hx =>
    obtain ⟨v, hv, hterm⟩ := leaf_agrees (.ident hk) source
    refine ⟨_, value_postfixOp ho htypes (value_leaf htypes hv), ?_⟩
    have hvalue := Term.value_unary (Term.Unary.ofTag?_nullTest negated) hterm
    rw [Term.Unary.apply] at hvalue
    simpa [Node.term, ho] using hvalue

end Evaluator

end MessageSelector
