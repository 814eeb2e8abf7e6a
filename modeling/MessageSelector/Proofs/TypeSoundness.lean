import MessageSelector.Proofs.Selection

/-!
# Type soundness

Where every identifier has a hint and every message has a value of the hinted type for it
(`Node.Supplied`), the value of an expression has the type that the checker found (`Value.Inhabits`,
`value_typed`), with one exception: an operation on integers whose result is no 64-bit integer is
unknown (`Node.Overflows`), and so may be what is computed from it.
-/

namespace MessageSelector

/-! ## Operations without a result -/

/-- The integer does not fit 64 bits. -/
def Decimal.ExceedsInt64 (n : Int) : Prop :=
  n < Int64.minValue.toInt ∨ Int64.maxValue.toInt < n

/-- The result of an operation on integers is none, or does not fit 64 bits. -/
def Arithmetic.Overflows (op : Arithmetic) (m n : Int64) : Prop :=
  (op = .divide ∧ n.toInt = 0) ∨
    ∃ r, Number.onIntegers? op m.toInt n.toInt = some r ∧ Decimal.ExceedsInt64 r

/-- The node applies arithmetic to integers, and overflows or divides by zero. -/
inductive Node.Overflows (value : Node → Except Defect Value) : Node → Prop
  | binary {id : Nat} {op : Token} {a : Arithmetic} {left right : Node} {m n : Int64} :
    op.kind.binary? = some (.arith a) → value left = .ok (.number (.int m)) →
      value right = .ok (.number (.int n)) → a.Overflows m n →
      Overflows value (.binary id op left right)
  | minus {id : Nat} {op : Token} {operand : Node} {n : Int64} :
    op.kind.prefix? = some .minus → value operand = .ok (.number (.int n)) →
      Decimal.ExceedsInt64 (-n.toInt) → Overflows value (.prefixOp id op operand)

/-- The node is an operation `+`, `-`, `*` or `/`, or changes a sign. -/
def Node.IsArithmetic : Node → Prop
  | .binary _ op _ _ => ∃ a, op.kind.binary? = some (.arith a)
  | .prefixOp _ op _ => op.kind.prefix? = some .minus
  | _ => False

theorem Node.Overflows.isArithmetic {value : Node → Except Defect Value} {n : Node}
    (h : n.Overflows value) : n.IsArithmetic := by
  cases h with
  | binary ho => exact ⟨_, ho⟩
  | minus ho => exact ho

theorem Decimal.exceedsInt64_of_fitInt64 {n : Int} (h : fitInt64 n = none) : ExceedsInt64 n := by
  rw [fitInt64] at h
  split at h
  · cases h
  · rw [ExceedsInt64]
    omega

/-- Integers without a result overflow. -/
theorem Arithmetic.overflows_of_arith? {op : Arithmetic} {m n : Int64}
    (h : Number.arith? op (.int m) (.int n) = none) : op.Overflows m n := by
  rw [Number.arith?, Option.map_eq_none_iff] at h
  cases hr : Number.onIntegers? op m.toInt n.toInt with
  | some r =>
    rw [hr, Option.bind_some] at h
    exact .inr ⟨r, hr, Decimal.exceedsInt64_of_fitInt64 h⟩
  | none =>
    cases op <;> simp only [Number.onIntegers?, reduceCtorEq] at hr
    case divide =>
      split at hr
      · next hzero => exact .inl ⟨rfl, hzero⟩
      · cases hr

/-! ## Values of a type -/

/-- The types of the values that a message can have. -/
def ExprType.IsScalar (type : ExprType) : Prop :=
  type = .bool ∨ type = .string ∨ type = .arith

/-- Of the scalar types only the wanted one is compatible with it. -/
theorem ExprType.IsScalar.eq_of_isCompatible {type wanted : ExprType} (h : type.IsScalar)
    (hwanted : type.isCompatible wanted = true) : type = wanted := by
  rcases h with rfl | rfl | rfl <;> exact of_decide_eq_true hwanted

/-- The value has the type, or is unknown for a cause. -/
def Value.Inhabits (v : Value) (type : ExprType) (cause : Prop) : Prop :=
  v.type = type ∨ v = .unknown ∧ cause

namespace Value

variable {c c' : Prop} {u v w : Value} {type type' : ExprType}

theorem Inhabits.mono (h : v.Inhabits type c) (hc : c → c') : v.Inhabits type c' :=
  h.imp_right fun hunknown => ⟨hunknown.1, hc hunknown.2⟩

/-- A result that is unknown where an operand is has to be looked at for operands of the type
only. -/
theorem Inhabits.strict {r : Value} (hv : v.Inhabits type c)
    (hunknown : v = .unknown → r = .unknown) (htyped : v.type = type → r.Inhabits type' c) :
    r.Inhabits type' c := by
  rcases hv with htype | ⟨hv, hc⟩
  · exact htyped htype
  · exact .inr ⟨hunknown hv, hc⟩

theorem eq_bool_of_type (h : v.type = .bool) : ∃ b, v = .bool b := by
  cases v <;> first | exact ⟨_, rfl⟩ | cases h

theorem eq_string_of_type (h : v.type = .string) : ∃ s, v = .string s := by
  cases v <;> first | exact ⟨_, rfl⟩ | cases h

theorem eq_number_of_type (h : v.type = .arith) : ∃ n, v = .number n := by
  cases v <;> first | exact ⟨_, rfl⟩ | cases h

theorem inhabits_not (hv : v.Inhabits .bool c) : v.not.Inhabits .bool c := by
  refine hv.strict (by rintro rfl; rfl) fun htype => ?_
  obtain ⟨b, rfl⟩ := eq_bool_of_type htype
  exact .inl rfl

theorem inhabits_negateIf (hv : v.Inhabits .bool c) (negated : Bool) :
    (v.negateIf negated).Inhabits .bool c := by
  cases negated with
  | false => exact hv
  | true => exact inhabits_not hv

/-- A conjunction is unknown only where an operand is. -/
theorem inhabits_and (hv : v.Inhabits .bool c) (hw : w.Inhabits .bool c) :
    (v.and w).Inhabits .bool c := by
  rcases hv with hv | ⟨rfl, hc⟩ <;> rcases hw with hw | ⟨rfl, hc⟩
  · obtain ⟨b, rfl⟩ := eq_bool_of_type hv
    obtain ⟨b', rfl⟩ := eq_bool_of_type hw
    cases b <;> cases b' <;> exact .inl rfl
  · obtain ⟨b, rfl⟩ := eq_bool_of_type hv
    cases b
    · exact .inl rfl
    · exact .inr ⟨rfl, hc⟩
  · obtain ⟨b, rfl⟩ := eq_bool_of_type hw
    cases b
    · exact .inl rfl
    · exact .inr ⟨rfl, hc⟩
  · exact .inr ⟨rfl, hc⟩

/-- A disjunction is unknown only where an operand is. -/
theorem inhabits_or (hv : v.Inhabits .bool c) (hw : w.Inhabits .bool c) :
    (v.or w).Inhabits .bool c := by
  rcases hv with hv | ⟨rfl, hc⟩ <;> rcases hw with hw | ⟨rfl, hc⟩
  · obtain ⟨b, rfl⟩ := eq_bool_of_type hv
    obtain ⟨b', rfl⟩ := eq_bool_of_type hw
    cases b <;> cases b' <;> exact .inl rfl
  · obtain ⟨b, rfl⟩ := eq_bool_of_type hv
    cases b
    · exact .inr ⟨rfl, hc⟩
    · exact .inl rfl
  · obtain ⟨b, rfl⟩ := eq_bool_of_type hw
    cases b
    · exact .inr ⟨rfl, hc⟩
    · exact .inl rfl
  · exact .inr ⟨rfl, hc⟩

/-- Values of one type are equal or not. -/
theorem inhabits_equals (htype : type.IsScalar) (hv : v.Inhabits type c)
    (hw : w.Inhabits type c) : (v.equals w).Inhabits .bool c := by
  refine hv.strict (by rintro rfl; rfl) fun hv => ?_
  rcases htype with rfl | rfl | rfl
  · obtain ⟨b, rfl⟩ := eq_bool_of_type hv
    refine hw.strict (by rintro rfl; rfl) fun hw => ?_
    obtain ⟨b', rfl⟩ := eq_bool_of_type hw
    exact .inl rfl
  · obtain ⟨s, rfl⟩ := eq_string_of_type hv
    refine hw.strict (by rintro rfl; rfl) fun hw => ?_
    obtain ⟨s', rfl⟩ := eq_string_of_type hw
    exact .inl rfl
  · obtain ⟨n, rfl⟩ := eq_number_of_type hv
    refine hw.strict (by rintro rfl; rfl) fun hw => ?_
    obtain ⟨n', rfl⟩ := eq_number_of_type hw
    exact .inl rfl

/-- Numbers without an order, as undefined ones, compare as false and not as unknown. -/
theorem inhabits_compareNumbers (op : Comparison) (hv : v.Inhabits .arith c)
    (hw : w.Inhabits .arith c) : (compareNumbers op v w).Inhabits .bool c := by
  refine hv.strict (by rintro rfl; rfl) fun hv => ?_
  obtain ⟨m, rfl⟩ := eq_number_of_type hv
  refine hw.strict (by rintro rfl; rfl) fun hw => ?_
  obtain ⟨n, rfl⟩ := eq_number_of_type hw
  simp only [compareNumbers, toNumber?]
  cases m.compare? n <;> exact .inl rfl

theorem inhabits_between (hu : u.Inhabits .arith c) (hv : v.Inhabits .arith c)
    (hw : w.Inhabits .arith c) : (u.between v w).Inhabits .bool c :=
  inhabits_and (inhabits_compareNumbers _ hv hu) (inhabits_compareNumbers _ hu hw)

/-- Arithmetic on numbers is unknown only where it overflows. -/
theorem inhabits_arith {op : Arithmetic} (hv : v.Inhabits .arith c) (hw : w.Inhabits .arith c)
    (hoverflow : ∀ m n, v = .number (.int m) → w = .number (.int n) → op.Overflows m n → c) :
    (v.arith op w).Inhabits .arith c := by
  refine hv.strict (by rintro rfl; rfl) fun hv => ?_
  obtain ⟨m, rfl⟩ := eq_number_of_type hv
  refine hw.strict (by rintro rfl; rfl) fun hw => ?_
  obtain ⟨n, rfl⟩ := eq_number_of_type hw
  simp only [arith, toNumber?]
  cases hresult : m.arith? op n with
  | some r => exact .inl rfl
  | none =>
    -- Only integers can be without a result.
    rcases m with m | x
    · rcases n with n | y
      · exact .inr ⟨rfl, hoverflow m n rfl rfl (Arithmetic.overflows_of_arith? hresult)⟩
      · cases hresult
    · cases hresult

theorem inhabits_negate (hv : v.Inhabits .arith c)
    (hoverflow : ∀ n : Int64, v = .number (.int n) → Decimal.ExceedsInt64 (-n.toInt) → c) :
    v.negate.Inhabits .arith c := by
  refine hv.strict (by rintro rfl; rfl) fun hv => ?_
  obtain ⟨n | x, rfl⟩ := eq_number_of_type hv
  · simp only [negate, toNumber?, Option.bind_some, Number.negate?]
    cases hfit : Decimal.fitInt64 (-n.toInt) with
    | some r => exact .inl rfl
    | none => exact .inr ⟨rfl, hoverflow n rfl (Decimal.exceedsInt64_of_fitInt64 hfit)⟩
  · exact .inl rfl

theorem inhabits_plus (hv : v.Inhabits .arith c) : v.plus.Inhabits .arith c := by
  refine hv.strict (by rintro rfl; rfl) fun hv => ?_
  obtain ⟨n, rfl⟩ := eq_number_of_type hv
  exact .inl rfl

theorem inhabits_isIn (hv : v.Inhabits .string c) (items : List String) :
    (v.isIn items).Inhabits .bool c := by
  refine hv.strict (by rintro rfl; rfl) fun hv => ?_
  obtain ⟨s, rfl⟩ := eq_string_of_type hv
  exact .inl rfl

theorem inhabits_like (hv : v.Inhabits .string c) (pieces : List Like.Piece) :
    (Term.like v (some pieces)).Inhabits .bool c := by
  refine hv.strict (by rintro rfl; rfl) fun hv => ?_
  obtain ⟨s, rfl⟩ := eq_string_of_type hv
  exact .inl rfl

end Value

/-! ## Operators and operands -/

open Typing (HasType require_valid)

/-- An operator between operands of scalar types gives a value of its own type, unless it
overflows. -/
theorem BinaryOperator.value_inhabits {o : BinaryOperator} (ho : o.takesExpressions)
    {type type' : ExprType} (htype : type.IsScalar) (htype' : type'.IsScalar)
    (hvalid : Typing.binary o type type' ≠ .invalid) {v w : Value} {c : Prop}
    (hv : v.Inhabits type c) (hw : w.Inhabits type' c)
    (hoverflow : ∀ a m n, o = .arith a → v = .number (.int m) → w = .number (.int n) →
      a.Overflows m n → c) :
    (Typing.binary o type type').IsScalar ∧
      (o.value v w).Inhabits (Typing.binary o type type') c := by
  have hboth {wanted : ExprType}
      (h : (type.isCompatible wanted && type'.isCompatible wanted) = true) :
      type = wanted ∧ type' = wanted := by
    obtain ⟨hleft, hright⟩ := Bool.and_eq_true_iff.1 h
    exact ⟨htype.eq_of_isCompatible hleft, htype'.eq_of_isCompatible hright⟩
  cases o with
  | and =>
    obtain ⟨rfl, rfl⟩ := hboth (require_valid hvalid).1
    exact ⟨.inl rfl, Value.inhabits_and hv hw⟩
  | or =>
    obtain ⟨rfl, rfl⟩ := hboth (require_valid hvalid).1
    exact ⟨.inl rfl, Value.inhabits_or hv hw⟩
  | arith a =>
    obtain ⟨rfl, rfl⟩ := hboth (require_valid hvalid).1
    exact ⟨.inr (.inr rfl), Value.inhabits_arith hv hw fun m n => hoverflow a m n rfl⟩
  | compare op =>
    have hequals (h : Typing.comparable type type' = true) : (v.equals w).Inhabits .bool c := by
      obtain ⟨wanted, -, hwanted⟩ := List.any_eq_true.1 h
      obtain ⟨rfl, rfl⟩ := hboth hwanted
      exact Value.inhabits_equals htype hv hw
    cases op with
    | equal =>
      obtain ⟨hholds, heq⟩ := require_valid hvalid
      rw [show Typing.binary (.compare .equal) type type' = .bool from heq]
      exact ⟨.inl rfl, hequals hholds⟩
    | notEqual =>
      obtain ⟨hholds, heq⟩ := require_valid hvalid
      rw [show Typing.binary (.compare .notEqual) type type' = .bool from heq]
      exact ⟨.inl rfl, Value.inhabits_not (hequals hholds)⟩
    | less | lessOrEqual | greater | greaterOrEqual =>
      obtain ⟨rfl, rfl⟩ := hboth (require_valid hvalid).1
      exact ⟨.inl rfl, Value.inhabits_compareNumbers _ hv hw⟩
  | like | isIn => cases ho

theorem PrefixOperator.applyPrefix_inhabits {o : PrefixOperator} {type : ExprType}
    (htype : type.IsScalar) (hvalid : Typing.prefixed o type ≠ .invalid) {v : Value} {c : Prop}
    (hv : v.Inhabits type c)
    (hoverflow : ∀ n : Int64, o = .minus → v = .number (.int n) →
      Decimal.ExceedsInt64 (-n.toInt) → c) :
    (Typing.prefixed o type).IsScalar ∧ (v.applyPrefix o).Inhabits (Typing.prefixed o type) c := by
  cases o with
  | not =>
    obtain rfl := htype.eq_of_isCompatible (require_valid hvalid).1
    exact ⟨.inl rfl, Value.inhabits_not hv⟩
  | minus =>
    obtain rfl := htype.eq_of_isCompatible (require_valid hvalid).1
    exact ⟨.inr (.inr rfl), Value.inhabits_negate hv fun n => hoverflow n rfl⟩
  | plus =>
    obtain rfl := htype.eq_of_isCompatible (require_valid hvalid).1
    exact ⟨.inr (.inr rfl), Value.inhabits_plus hv⟩

/-- A literal has a value of its type, and so has an identifier that has one of its hinted type. -/
theorem Evaluator.leaf_inhabits {hints : Hints} {source : PropertySource} {t : Token}
    (h : t.Literal) (hident : t.kind = .ident → (hints t.text).IsScalar ∧
      ∃ v, source t.text = some v ∧ v.type = hints t.text) {type : ExprType}
    (htype : Typing.leaf hints t = .ok type) :
    type.IsScalar ∧ ∃ v, leafValue source t = .ok v ∧ v.type = type := by
  rw [Typing.leaf] at htype
  cases h with
  | trueWord hk =>
    rw [hk] at htype
    cases htype
    exact ⟨.inl rfl, .bool true, by rw [leafValue, hk], rfl⟩
  | falseWord hk =>
    rw [hk] at htype
    cases htype
    exact ⟨.inl rfl, .bool false, by rw [leafValue, hk], rfl⟩
  | ident hk =>
    obtain ⟨hscalar, v, hv, hvtype⟩ := hident hk
    rw [hk] at htype
    cases htype
    exact ⟨hscalar, v, by rw [leafValue, hk, PropertySource.value, hv]; rfl, hvtype⟩
  | string s hk hs =>
    rw [hk] at htype
    cases htype
    exact ⟨.inr (.inl rfl), .string s, by rw [leafValue, hk, hs], rfl⟩
  | int n hk hn =>
    rw [hk] at htype
    cases htype
    exact ⟨.inr (.inr rfl), .number (.int n), by rw [leafValue, hk, hn], rfl⟩
  | float x hk hx _ =>
    rw [hk] at htype
    cases htype
    exact ⟨.inr (.inr rfl), .number (.float x), by rw [leafValue, hk, hx], rfl⟩
  | hex n hk hn =>
    rw [hk] at htype
    cases htype
    exact ⟨.inr (.inr rfl), .number (Number.ofUInt64 n), by rw [leafValue, hk, hn], rfl⟩

/-! ## Trees -/

/-- Every identifier of the tree has a hint, and the source has a value of the hinted type for
it. -/
def Node.Supplied (n : Node) (hints : Hints) (source : PropertySource) : Prop :=
  ∀ name, n.Mentions name → (hints name).IsScalar ∧
    ∃ v, source name = some v ∧ v.type = hints name

theorem Node.Supplied.of_mem {m n : Node} {hints : Hints} {source : PropertySource}
    (h : n.Supplied hints source) (hm : m ∈ n.preorder) : m.Supplied hints source :=
  fun name hname => h name (hname.of_mem hm)

theorem Node.Supplied.of_child {c n : Node} {hints : Hints} {source : PropertySource}
    (h : n.Supplied hints source) (hc : c ∈ n.children) : c.Supplied hints source :=
  h.of_mem (mem_preorder_of_child hc (mem_preorder_self c))

/-- **A tree without type errors has a value of its type**, or it is unknown and some node of the
tree overflows. -/
theorem Evaluator.value_inhabits {types : TypeTable} {evaluator : Evaluator}
    {source : PropertySource} {hints : Hints} {n : Node} (h : n.Formed Token.Valued)
    (htypes : ∀ i, types.get i ≠ .invalid)
    (hpatterns : ∀ m ∈ n.preorder, ∀ pieces, m.pieces? = some pieces →
      evaluator.patterns[m.id]? = some pieces)
    (hsupplied : n.Supplied hints source) {type : ExprType} (htype : HasType hints n type) :
    type.IsScalar ∧ ∃ v, evaluator.value types source n = .ok v ∧
      v.Inhabits type (∃ k ∈ n.preorder, k.Overflows (evaluator.value types source)) := by
  -- What overflows in a child overflows in the node.
  have hlift {n c : Node} {v : Value} {type : ExprType} (hc : c ∈ n.children)
      (hv : v.Inhabits type (∃ k ∈ c.preorder, k.Overflows (evaluator.value types source))) :
      v.Inhabits type (∃ k ∈ n.preorder, k.Overflows (evaluator.value types source)) :=
    hv.mono fun ⟨k, hk, hoverflows⟩ => ⟨k, Node.mem_preorder_of_child hc hk, hoverflows⟩
  have hleaf {id : Nat} {t : Token} {type : ExprType} {c : Prop} (h : t.Literal)
      (hsupplied : (Node.leaf id t).Supplied hints source)
      (htype : HasType hints (.leaf id t) type) :
      type.IsScalar ∧ ∃ v, evaluator.value types source (.leaf id t) = .ok v ∧
        v.Inhabits type c := by
    obtain ⟨hscalar, v, hv, hvtype⟩ := leaf_inhabits h
      (fun hk => hsupplied _ ⟨id, t, Node.mem_preorder_self _, hk, rfl⟩)
      (Typing.hasType_leaf.1 htype).1
    exact ⟨hscalar, v, value_leaf htypes hv, .inl hvtype⟩
  induction h generalizing type with
  | leaf hk ht => exact hleaf (ht.literal hk) hsupplied htype
  | @binary id op o left right ho htakes _ _ ihl ihr =>
    obtain ⟨_, _, hltype, hrtype, rfl, hvalid⟩ := (Typing.hasType_binary ho).1 htype
    have hleft : left ∈ (Node.binary id op left right).children := List.mem_cons_self
    have hright : right ∈ (Node.binary id op left right).children := by simp [Node.children]
    obtain ⟨hlscalar, l, hl, hlin⟩ := ihl
      (fun m hm => hpatterns m (Node.mem_preorder_of_child hleft hm))
      (hsupplied.of_child hleft) hltype
    obtain ⟨hrscalar, r, hr, hrin⟩ := ihr
      (fun m hm => hpatterns m (Node.mem_preorder_of_child hright hm))
      (hsupplied.of_child hright) hrtype
    obtain ⟨hscalar, hin⟩ := o.value_inhabits htakes hlscalar hrscalar hvalid
      (hlift hleft hlin) (hlift hright hrin) fun a m n hop hm hn hoverflows =>
        ⟨_, Node.mem_preorder_self _, .binary (hop ▸ ho) (hm ▸ hl) (hn ▸ hr) hoverflows⟩
    exact ⟨hscalar, _, value_binary htakes ho htypes hl hr, hin⟩
  | @like id i op x negated p ho hk hx hp =>
    obtain ⟨_, _, hltype, hptype, rfl, hvalid⟩ := (Typing.hasType_binary ho).1 htype
    have hleft : .leaf i x ∈ (Node.binary id op (.leaf i x) p).children := List.mem_cons_self
    have hright : p ∈ (Node.binary id op (.leaf i x) p).children := by simp [Node.children]
    obtain ⟨hlscalar, l, hl, hlin⟩ := hleaf (.ident hk) (hsupplied.of_child hleft) hltype
    obtain ⟨rfl, pieces, hpieces⟩ := (Typing.hasType_pattern hp).1 hptype
    obtain ⟨hholds, heq⟩ := require_valid hvalid
    obtain rfl := hlscalar.eq_of_isCompatible (Bool.and_eq_true_iff.1 hholds).1
    have hpattern := hpatterns p
      (Node.mem_preorder_of_child hright (Node.mem_preorder_self p)) _ hpieces
    have hmatch : evaluator.like l p.id = .ok (Term.like l pieces) := like_eq hpattern
    exact ⟨.inl rfl, _, value_like ho htypes hl hmatch,
      Value.inhabits_negateIf (Value.inhabits_like (hlift hleft hlin) pieces) negated⟩
  | @isIn id i j op x negated items ho hk hx hne =>
    obtain ⟨_, _, hltype, hlist, rfl, hvalid⟩ := (Typing.hasType_binary ho).1 htype
    have hleft : .leaf i x ∈ (Node.binary id op (.leaf i x) (.list j items)).children :=
      List.mem_cons_self
    obtain ⟨hlscalar, l, hl, hlin⟩ := hleaf (.ident hk) (hsupplied.of_child hleft) hltype
    obtain rfl := Typing.hasType_list.1 hlist
    obtain rfl := hlscalar.eq_of_isCompatible (Bool.and_eq_true_iff.1 (require_valid hvalid).1).1
    exact ⟨.inl rfl, _, value_isIn ho htypes hl,
      Value.inhabits_negateIf (Value.inhabits_isIn (hlift hleft hlin) items) negated⟩
  | @ternary id op negated first second third ho _ _ _ ih₁ ih₂ ih₃ =>
    obtain ⟨_, _, _, htype₁, htype₂, htype₃, rfl, hvalid⟩ := (Typing.hasType_ternary ho).1 htype
    have hmem₁ : first ∈ (Node.ternary id op first second third).children := List.mem_cons_self
    have hmem₂ : second ∈ (Node.ternary id op first second third).children := by
      simp [Node.children]
    have hmem₃ : third ∈ (Node.ternary id op first second third).children := by
      simp [Node.children]
    obtain ⟨hscalar₁, v, hv, hin₁⟩ := ih₁
      (fun m hm => hpatterns m (Node.mem_preorder_of_child hmem₁ hm))
      (hsupplied.of_child hmem₁) htype₁
    obtain ⟨hscalar₂, low, hlow, hin₂⟩ := ih₂
      (fun m hm => hpatterns m (Node.mem_preorder_of_child hmem₂ hm))
      (hsupplied.of_child hmem₂) htype₂
    obtain ⟨hscalar₃, high, hhigh, hin₃⟩ := ih₃
      (fun m hm => hpatterns m (Node.mem_preorder_of_child hmem₃ hm))
      (hsupplied.of_child hmem₃) htype₃
    obtain ⟨hholds, heq⟩ := require_valid hvalid
    rw [heq]
    simp only [List.all_cons, List.all_nil, Bool.and_true, Bool.and_eq_true] at hholds
    obtain rfl := hscalar₁.eq_of_isCompatible hholds.1
    obtain rfl := hscalar₂.eq_of_isCompatible hholds.2.1
    obtain rfl := hscalar₃.eq_of_isCompatible hholds.2.2
    exact ⟨.inl rfl, _, value_ternary ho htypes hv hlow hhigh, Value.inhabits_negateIf
      (Value.inhabits_between (hlift hmem₁ hin₁) (hlift hmem₂ hin₂) (hlift hmem₃ hin₃)) negated⟩
  | @prefixOp id op o operand ho _ ih =>
    obtain ⟨_, hotype, rfl, hvalid⟩ := (Typing.hasType_prefixOp ho).1 htype
    have hmem : operand ∈ (Node.prefixOp id op operand).children := List.mem_cons_self
    obtain ⟨hscalar, v, hv, hin⟩ := ih
      (fun m hm => hpatterns m (Node.mem_preorder_of_child hmem hm))
      (hsupplied.of_child hmem) hotype
    obtain ⟨hscalar', hin'⟩ := o.applyPrefix_inhabits hscalar hvalid (hlift hmem hin)
      fun n hop hn hoverflows =>
        ⟨_, Node.mem_preorder_self _, .minus (hop ▸ ho) (hn ▸ hv) hoverflows⟩
    exact ⟨hscalar', _, value_prefixOp ho htypes hv, hin'⟩
  | @postfixOp id i op x negated ho hk hx =>
    obtain ⟨⟨_, hotype⟩, rfl⟩ := (Typing.hasType_postfixOp ho).1 htype
    have hmem : .leaf i x ∈ (Node.postfixOp id op (.leaf i x)).children := List.mem_cons_self
    obtain ⟨-, v, hv, -⟩ := @hleaf _ _ _ True (.ident hk) (hsupplied.of_child hmem) hotype
    exact ⟨.inl rfl, _, value_postfixOp ho htypes hv, .inl rfl⟩

/-! ## Selectors -/

namespace Selector

/-- **Type soundness.** Where every identifier has a hint and the message has a value of the hinted
type for it, every expression of a selector has a value of the type that the checker found for it,
or it is unknown and some node in it overflows. So a selector without arithmetic has an answer. -/
theorem value_typed (text : String) (hints : Hints) (s : Selector)
    (hs : withHints text hints = .ok s) (source : PropertySource)
    (hsupplied : s.tree.Supplied hints source) :
    (∀ n ∈ s.tree.preorder, n.IsExpression →
      ∃ v, s.evaluator.value s.types source n = .ok v ∧
        (v.type = s.types.get n.id ∨ v = .unknown ∧
          ∃ k ∈ n.preorder, k.Overflows (s.evaluator.value s.types source))) ∧
    ((∀ k ∈ s.tree.preorder, ¬ k.IsArithmetic) → ∃ v, s.value source = .ok v ∧ v ≠ .unknown) := by
  have hmade := made_of_withHints hs
  have hvalid := Node.get_ne_invalid hmade.check_eq hmade.accept_eq
  have htable := Node.typeOf_of_check hmade.check_eq hmade.accepted.nodup
  have hvalue (n : Node) (hn : n ∈ s.tree.preorder) (hexpression : n.IsExpression) :=
    Evaluator.value_inhabits (hmade.accepted.formed.of_mem hn hexpression) hvalid
      (fun m hm => hmade.patterns_eq m (Node.preorder_subset hn hm)) (hsupplied.of_mem hn)
      ⟨htable n hn, hvalid _⟩
  refine ⟨fun n hn hexpression => (hvalue n hn hexpression).2, fun harith => ?_⟩
  have hroot := Node.mem_preorder_self s.tree
  obtain ⟨hscalar, v, hv, hin⟩ := hvalue s.tree hroot hmade.accepted.formed.isExpression
  refine ⟨v, hv, ?_⟩
  rintro rfl
  rcases hin with htype | ⟨-, k, hk, hoverflows⟩
  · -- The type of an unknown value is that of no message's value.
    rw [← htype] at hscalar
    rcases hscalar with h | h | h <;> cases h
  · exact harith k hk hoverflows.isArithmetic

/-- A comparison of a sum, in messages where the sum overflows. -/
theorem value_typed_sum :
    ∃ s, withHints "(x + 1) < 2" (fun _ => .arith) = .ok s ∧
      s.tree.Supplied (fun _ => .arith) (fun _ => some (.number (.int Int64.maxValue))) ∧
      ∀ n ∈ s.tree.preorder, n.IsExpression → ∃ v,
        s.evaluator.value s.types (fun _ => some (.number (.int Int64.maxValue))) n = .ok v ∧
        (v.type = s.types.get n.id ∨ v = .unknown) := by
  let start : Token := ⟨.openParen, "(", 0⟩
  let x : Token := ⟨.ident, "x", 1⟩
  let plus : Token := ⟨.plus, "+", 3⟩
  let one : Token := ⟨.int, "1", 5⟩
  let stop : Token := ⟨.closeParen, ")", 6⟩
  let less : Token := ⟨.less, "<", 8⟩
  let two : Token := ⟨.int, "2", 10⟩
  have htokens : tokenize "(x + 1) < 2" = .ok [start, x, plus, one, stop, less, two] := by
    decide +kernel
  have hsum : Spells [.rule .expr] [x, plus, one] [.binary 0 plus (.leaf 0 x) (.leaf 0 one)] :=
    @Spells.operator [x] [one] plus _ _ (.arith .add) rfl rfl (.literal rfl) (.literal rfl)
  have hspells := @Spells.operator _ [two] less _ _ (.compare .less) rfl rfl
    (hsum.interior (rfl : start.kind = _) (rfl : stop.kind = _)) (.literal rfl)
  have hparse : parse "(x + 1) < 2" = .ok (.binary 0 less
      (.binary 1 plus (.leaf 2 x) (.leaf 3 one)) (.leaf 4 two)) := by
    rw [parse, htokens]
    exact Parser.parse_of_spells (by decide) hspells
  have htype : HasType (fun _ => .arith) (.binary 0 less
      (.binary 1 plus (.leaf 2 x) (.leaf 3 one)) (.leaf 4 two)) .bool := ⟨rfl, by decide⟩
  obtain ⟨s, hs, htree⟩ := withHints_of_hasType hparse htype (.inl rfl)
  have hsupplied : s.tree.Supplied (fun _ => .arith)
      (fun _ => some (.number (.int Int64.maxValue))) :=
    fun _ _ => ⟨.inr (.inr rfl), _, rfl, rfl⟩
  refine ⟨s, hs, hsupplied, fun n hn hexpression => ?_⟩
  obtain ⟨v, hv, htyped⟩ := (value_typed _ _ s hs _ hsupplied).1 n hn hexpression
  exact ⟨v, hv, htyped.imp_right And.left⟩

end Selector

end MessageSelector
