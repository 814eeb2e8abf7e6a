import MessageSelector.Proofs.Selection

/-!
# Information

A message that has more properties (`PropertySource.Extends`) settles more selectors and changes no
answer (`value_monotone`). Every operator but the null tests keeps the order in which an unknown
value comes before every other one (`Approximates`), so the value of a tree without null tests does,
and so does the value of its program.
-/

namespace MessageSelector

/-! ## The order of values -/

namespace Value

/-- The value is unknown, or it is the other one. -/
def Approximates (v w : Value) : Prop :=
  v = .unknown ∨ v = w

variable {v v' w w' : Value}

theorem Approximates.refl (v : Value) : v.Approximates v :=
  .inr rfl

theorem Approximates.trans {u : Value} (h : u.Approximates v) (h' : v.Approximates w) :
    u.Approximates w := by
  rcases h with rfl | rfl
  · exact .inl rfl
  · exact h'

/-- An operator that is unknown where its operand is keeps the order. -/
theorem Approximates.strict {f : Value → Value} (hf : f .unknown = .unknown)
    (h : v.Approximates v') : (f v).Approximates (f v') := by
  rcases h with rfl | rfl
  · exact .inl hf
  · exact .refl _

theorem Approximates.strict₂ {f : Value → Value → Value} (hl : ∀ w, f .unknown w = .unknown)
    (hr : ∀ v, f v .unknown = .unknown) (hv : v.Approximates v') (hw : w.Approximates w') :
    (f v w).Approximates (f v' w') := by
  rcases hv with rfl | rfl
  · exact .inl (hl w)
  · exact hw.strict (hr v)

theorem Approximates.not (h : v.Approximates v') : v.not.Approximates v'.not :=
  h.strict rfl

theorem Approximates.negateIf (h : v.Approximates v') (negated : Bool) :
    (v.negateIf negated).Approximates (v'.negateIf negated) :=
  h.strict (by cases negated <;> rfl)

theorem and_comm (v w : Value) : v.and w = w.and v := by
  simp only [Value.and]
  rcases v.toBool? with _ | _ | _ <;> rcases w.toBool? with _ | _ | _ <;> rfl

theorem or_comm (v w : Value) : v.or w = w.or v := by
  simp only [Value.or]
  rcases v.toBool? with _ | _ | _ <;> rcases w.toBool? with _ | _ | _ <;> rfl

/-- An unknown operand leaves a conjunction unknown, unless the other operand decides it, whatever
the operand is. -/
theorem Approximates.and_left (h : v.Approximates v') (w : Value) :
    (v.and w).Approximates (v'.and w) := by
  rcases h with rfl | rfl
  · cases w with
    | bool b =>
      cases b with
      | false =>
        rw [and_comm, and_of_false rfl, and_comm, and_of_false rfl]
        exact .refl _
      | true => exact .inl rfl
    | unknown | string | number | list => exact .inl rfl
  · exact .refl _

theorem Approximates.or_left (h : v.Approximates v') (w : Value) :
    (v.or w).Approximates (v'.or w) := by
  rcases h with rfl | rfl
  · cases w with
    | bool b =>
      cases b with
      | true =>
        rw [or_comm, or_of_true rfl, or_comm, or_of_true rfl]
        exact .refl _
      | false => exact .inl rfl
    | unknown | string | number | list => exact .inl rfl
  · exact .refl _

theorem Approximates.and (hv : v.Approximates v') (hw : w.Approximates w') :
    (v.and w).Approximates (v'.and w') := by
  have hright := hw.and_left v'
  rw [and_comm w, and_comm w'] at hright
  exact (hv.and_left w).trans hright

theorem Approximates.or (hv : v.Approximates v') (hw : w.Approximates w') :
    (v.or w).Approximates (v'.or w') := by
  have hright := hw.or_left v'
  rw [or_comm w, or_comm w'] at hright
  exact (hv.or_left w).trans hright

theorem Approximates.equals (hv : v.Approximates v') (hw : w.Approximates w') :
    (v.equals w).Approximates (v'.equals w') :=
  hv.strict₂ (fun _ => rfl) (fun v => by cases v <;> rfl) hw

theorem Approximates.compareNumbers (op : Comparison) (hv : v.Approximates v')
    (hw : w.Approximates w') :
    (Value.compareNumbers op v w).Approximates (Value.compareNumbers op v' w') :=
  hv.strict₂ (fun _ => rfl) (fun v => by cases v <;> rfl) hw

theorem Approximates.compare (op : Comparison) (hv : v.Approximates v')
    (hw : w.Approximates w') : (v.compare op w).Approximates (v'.compare op w') := by
  cases op with
  | equal => exact hv.equals hw
  | notEqual => exact (hv.equals hw).not
  | less | lessOrEqual | greater | greaterOrEqual => exact hv.compareNumbers _ hw

theorem Approximates.arith (op : Arithmetic) (hv : v.Approximates v') (hw : w.Approximates w') :
    (v.arith op w).Approximates (v'.arith op w') :=
  hv.strict₂ (fun _ => rfl) (fun v => by cases v <;> rfl) hw

/-- A number outside one of two bounds is not between them, whatever the other bound is. -/
theorem Approximates.between {low low' high high' : Value} (hv : v.Approximates v')
    (hlow : low.Approximates low') (hhigh : high.Approximates high') :
    (v.between low high).Approximates (v'.between low' high') :=
  (hlow.compare _ hv).and (hv.compare _ hhigh)

theorem Approximates.isIn (h : v.Approximates v') (items : List String) :
    (v.isIn items).Approximates (v'.isIn items) :=
  @strict v v' (fun v => v.isIn items) rfl h

theorem Approximates.like (h : v.Approximates v') (pieces : Option (List Like.Piece)) :
    (Term.like v pieces).Approximates (Term.like v' pieces) :=
  @strict v v' (fun v => Term.like v pieces) (by cases pieces <;> rfl) h

theorem Approximates.applyPrefix (h : v.Approximates v') (op : PrefixOperator) :
    (v.applyPrefix op).Approximates (v'.applyPrefix op) :=
  h.strict (by cases op <;> rfl)

theorem Approximates.binary (op : BinaryOperator) (hv : v.Approximates v')
    (hw : w.Approximates w') : (op.value v w).Approximates (op.value v' w') := by
  cases op with
  | and => exact hv.and hw
  | or => exact hv.or hw
  | compare op => exact hv.compare op hw
  | arith op => exact hv.arith op hw
  | like | isIn => exact .inl rfl

end Value

/-! ## Trees -/

/-- The second message has every value that the first has for an identifier of the tree. -/
def PropertySource.Extends (n : Node) (p q : PropertySource) : Prop :=
  ∀ name v, n.Mentions name → p name = some v → v ≠ .unknown → q name = some v

/-- The node is `IS NULL` or `IS NOT NULL` of its operand. -/
def Node.IsNullTest (n : Node) : Prop :=
  ∃ op, n.operator? = some op ∧ (op.kind = .isNull ∨ op.kind = .isNotNull)

theorem PropertySource.Extends.value {n : Node} {p q : PropertySource} (h : Extends n p q)
    {name : String} (hname : n.Mentions name) : (p.value name).Approximates (q.value name) := by
  cases hp : p name with
  | none => exact .inl (by rw [PropertySource.value, hp]; rfl)
  | some v =>
    by_cases hv : v = .unknown
    · exact .inl (by rw [PropertySource.value, hp, hv]; rfl)
    · exact .inr (by rw [PropertySource.value, PropertySource.value, hp, h name v hname hp hv])

theorem PropertySource.Extends.of_child {c n : Node} {p q : PropertySource} (h : Extends n p q)
    (hc : c ∈ n.children) : Extends c p q :=
  fun name v hname =>
    h name v (hname.of_mem (Node.mem_preorder_of_child hc (Node.mem_preorder_self c)))

/-- The term has values for both messages, the first of which approximates the second. -/
def Term.Monotone (p q : PropertySource) (t : Term) : Prop :=
  ∃ v w, t.value p = .ok v ∧ t.value q = .ok w ∧ v.Approximates w

/-- A literal has its value in every message. -/
theorem Evaluator.leafValue_of_ne_ident {t : Token} (hk : t.kind ≠ .ident) (p q : PropertySource) :
    leafValue p t = leafValue q t := by
  rw [leafValue, leafValue]
  cases h : t.kind <;> first | rfl | exact absurd h hk

theorem Token.Literal.monotone {t : Token} (h : t.Literal) (f : Float → Float)
    {p q : PropertySource} (hident : t.kind = .ident →
      (p.value t.text).Approximates (q.value t.text)) : (t.termBy f).Monotone p q := by
  rcases t.termBy_cases f with ⟨x, -, hterm⟩ | hterm
  · exact ⟨_, _, by rw [hterm, Term.value], by rw [hterm, Term.value], .refl _⟩
  · obtain ⟨v, hv, htermv⟩ := Evaluator.leaf_agrees h p
    obtain ⟨w, hw, htermw⟩ := Evaluator.leaf_agrees h q
    rw [hterm]
    refine ⟨v, w, htermv, htermw, ?_⟩
    by_cases hk : t.kind = .ident
    · rw [Evaluator.leafValue, hk] at hv hw
      cases hv
      cases hw
      exact hident hk
    · rw [Evaluator.leafValue_of_ne_ident hk p q, hw] at hv
      cases hv
      exact .refl _

namespace Node

variable {p q : PropertySource}

/-- **The value of a term without null tests is monotone**, whatever its numbers are read as. -/
theorem Formed.monotone {n : Node} (h : n.Formed Token.Valued)
    (hnull : ∀ m ∈ n.preorder, ¬ m.IsNullTest) (hpq : PropertySource.Extends n p q)
    (f : Float → Float) : (n.termBy f).Monotone p q := by
  have hleaf {id : Nat} {t : Token} (h : t.Literal)
      (hpq : PropertySource.Extends (.leaf id t) p q) : (t.termBy f).Monotone p q :=
    h.monotone f fun hk => hpq.value ⟨id, t, mem_preorder_self _, hk, rfl⟩
  -- A child has no null test either, and is told as much.
  have hchild {n c : Node} (hc : c ∈ n.children) (hnull : ∀ m ∈ n.preorder, ¬ m.IsNullTest) :
      ∀ m ∈ c.preorder, ¬ m.IsNullTest :=
    fun m hm => hnull m (mem_preorder_of_child hc hm)
  induction h with
  | leaf hk ht => exact hleaf (ht.literal hk) hpq
  | @binary id op o left right ho htakes _ _ ihl ihr =>
    have hleft : left ∈ (Node.binary id op left right).children := List.mem_cons_self
    have hright : right ∈ (Node.binary id op left right).children := by simp [children]
    obtain ⟨l, l', hl, hl', hlmono⟩ := ihl (hchild hleft hnull) (hpq.of_child hleft)
    obtain ⟨r, r', hr, hr', hrmono⟩ := ihr (hchild hright hnull) (hpq.of_child hright)
    rw [termBy, ho]
    exact ⟨_, _, Term.value_binary htakes hl hr, Term.value_binary htakes hl' hr',
      .binary o hlmono hrmono⟩
  | @like id i op x negated pattern ho hk hx hp =>
    have hleft : .leaf i x ∈ (Node.binary id op (.leaf i x) pattern).children := List.mem_cons_self
    obtain ⟨l, l', hl, hl', hlmono⟩ := hleaf (.ident hk) (hpq.of_child hleft)
    obtain ⟨items, pieces, hterm, -, hread⟩ := Evaluator.pattern?_term hp
    rw [termBy, ho, hp.termBy, hterm]
    exact ⟨_, _, Term.value_like hl hread, Term.value_like hl' hread,
      (hlmono.like pieces).negateIf negated⟩
  | @isIn id i j op x negated items ho hk hx hne =>
    have hleft : .leaf i x ∈ (Node.binary id op (.leaf i x) (.list j items)).children :=
      List.mem_cons_self
    obtain ⟨l, l', hl, hl', hlmono⟩ := hleaf (.ident hk) (hpq.of_child hleft)
    rw [termBy, ho]
    exact ⟨_, _, Term.value_isIn items hl, Term.value_isIn items hl',
      (hlmono.isIn items).negateIf negated⟩
  | @ternary id op negated first second third ho _ _ _ ih₁ ih₂ ih₃ =>
    have hmem₁ : first ∈ (Node.ternary id op first second third).children := List.mem_cons_self
    have hmem₂ : second ∈ (Node.ternary id op first second third).children := by simp [children]
    have hmem₃ : third ∈ (Node.ternary id op first second third).children := by simp [children]
    obtain ⟨v, v', hv, hv', hmono⟩ := ih₁ (hchild hmem₁ hnull) (hpq.of_child hmem₁)
    obtain ⟨low, low', hlow, hlow', hmonoLow⟩ := ih₂ (hchild hmem₂ hnull) (hpq.of_child hmem₂)
    obtain ⟨high, high', hhigh, hhigh', hmonoHigh⟩ :=
      ih₃ (hchild hmem₃ hnull) (hpq.of_child hmem₃)
    have hterm : (Node.ternary id op first second third).termBy f =
        .tuple [.atom (if negated then "not_between" else "between"), first.termBy f,
          .tuple [.atom "range", second.termBy f, third.termBy f]] := by
      simp [termBy, ho]
    rw [hterm]
    exact ⟨_, _, Term.value_between hv hlow hhigh, Term.value_between hv' hlow' hhigh',
      (hmono.between hmonoLow hmonoHigh).negateIf negated⟩
  | @prefixOp id op o operand ho _ ih =>
    have hmem : operand ∈ (Node.prefixOp id op operand).children := List.mem_cons_self
    obtain ⟨v, v', hv, hv', hmono⟩ := ih (hchild hmem hnull) (hpq.of_child hmem)
    have htag := Term.Unary.ofTag?_prefix o
    rw [termBy, ho]
    exact ⟨_, _, Term.value_unary htag hv, Term.value_unary htag hv', hmono.applyPrefix o⟩
  | @postfixOp id i op x negated ho =>
    refine absurd ⟨op, rfl, ?_⟩ (hnull _ (mem_preorder_self _))
    cases hk : op.kind <;> rw [hk] at ho <;> simp [Token.Kind.postfixNegated?] at ho ⊢

end Node

/-! ## Selectors -/

/-- What the numeral of a number is read as. -/
def Decimal.reread (x : Float) : Float :=
  (float? (FloatFormat.program.write x).toList).getD x

theorem Node.readBy_reread (n : Node) : n.ReadBy Decimal.reread := by
  intro id t _ x hx
  have hfinite : x.isFinite := by
    have hx' := hx
    rw [Token.payload?, Token.kind_of_float hx] at hx'
    obtain ⟨y, hy, heq⟩ := Option.map_eq_some_iff.1 hx'
    cases heq
    exact (Option.filter_eq_some_iff.1 hy).2
  obtain ⟨y, hy⟩ := Term.float?_write hfinite
  rw [Decimal.reread, hy]
  rfl

namespace Selector

/-- **Information is monotone.** For a selector without null tests, a message that has all that
another one has for its identifiers has the value of the other one, unless that is unknown. The
same holds of the program of the selector. -/
theorem value_monotone (text : String) (hints : Hints) (s : Selector)
    (hs : withHints text hints = .ok s) (hnull : ∀ n ∈ s.tree.preorder, ¬ n.IsNullTest) :
    ∃ program t, s.compile = .ok program ∧ Term.read program = .ok t ∧
      ∀ p q, PropertySource.Extends s.tree p q →
        (∃ v w, s.value p = .ok v ∧ s.value q = .ok w ∧ (v = .unknown ∨ v = w)) ∧
        (∃ v w, t.value p = .ok v ∧ t.value q = .ok w ∧ (v = .unknown ∨ v = w)) := by
  have hmade := made_of_withHints hs
  obtain ⟨program, hprogram, hterm⟩ := hmade.read_program s.tree.readBy_reread
  refine ⟨program, _, hprogram, hterm, fun p q hpq => ⟨?_, ?_⟩⟩
  · obtain ⟨v, w, hv, hw, hmono⟩ := hmade.accepted.formed.monotone hnull hpq fun x => x
    rw [Node.termBy_self] at hv hw
    obtain ⟨v', hv', htermv⟩ := hmade.value_agrees p
    obtain ⟨w', hw', htermw⟩ := hmade.value_agrees q
    cases htermv.symm.trans hv
    cases htermw.symm.trans hw
    exact ⟨v, w, hv', hw', hmono⟩
  · exact hmade.accepted.formed.monotone hnull hpq Decimal.reread

/-- A conjunction, in messages without its second operand and with it. -/
theorem value_monotone_and :
    ∃ s v w, withHints "x AND y" Hints.empty = .ok s ∧
      s.value (fun name => if name = "x" then some (.bool false) else none) = .ok v ∧
      s.value (fun _ => some (.bool false)) = .ok w ∧ (v = .unknown ∨ v = w) := by
  let x : Token := ⟨.ident, "x", 0⟩
  let both : Token := ⟨.and, "AND", 2⟩
  let y : Token := ⟨.ident, "y", 6⟩
  have htokens : tokenize "x AND y" = .ok [x, both, y] := by decide +kernel
  have hspells := @Spells.operator [x] [y] both (.leaf 0 x) (.leaf 0 y) .and rfl rfl (.literal rfl)
    (.literal rfl)
  have hparse : parse "x AND y" = .ok (.binary 0 both (.leaf 1 x) (.leaf 2 y)) := by
    rw [parse, htokens]
    exact Parser.parse_of_spells (by decide) hspells
  have htype : Typing.HasType Hints.empty (.binary 0 both (.leaf 1 x) (.leaf 2 y)) .bool :=
    ⟨rfl, by decide⟩
  obtain ⟨s, hs, htree⟩ := withHints_of_hasType hparse htype (.inl rfl)
  have hnull : ∀ n ∈ s.tree.preorder, ¬ n.IsNullTest := by
    rw [htree]
    simp [Node.preorder, Node.IsNullTest, Node.operator?, both]
  obtain ⟨_, _, _, _, hvalue⟩ := value_monotone _ _ s hs hnull
  obtain ⟨⟨v, w, hv, hw, hvw⟩, -⟩ := hvalue
    (fun name => if name = "x" then some (.bool false) else none) (fun _ => some (.bool false))
    fun name v _ hname _ => by
      simp only [Option.ite_none_right_eq_some] at hname
      exact hname.2
  exact ⟨s, v, w, hs, hv, hw, hvw⟩

end Selector

end MessageSelector
