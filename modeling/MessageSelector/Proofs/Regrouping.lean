import MessageSelector.Proofs.Reprinting

/-!
# Regrouping

`AND` and `OR` are left out from the first operand on that decides (`BinaryOperator.deciding?`), and
an operand may be a value that is no truth value. What a chain of one of them comes to (`Joins`)
still depends on neither the order of its operands nor their bracketing (`Joins.settles`): one
deciding operand is enough for the deciding truth value, all operands are needed for the other one,
and in every other case the chain is unknown. Operators around the chain see only its value
(`Regrouped.agree`), and the value of a tree is that of its term, in which there are neither
identifiers nor offsets (`value_regrouped`).
-/

namespace MessageSelector

/-! ## Connectives -/

/-- The truth value of one operand that settles a conjunction or a disjunction. -/
def BinaryOperator.deciding? : BinaryOperator → Option Bool
  | and => some false
  | or => some true
  | _ => none

namespace BinaryOperator

variable {o : BinaryOperator} {deciding : Bool}

theorem takesExpressions_of_deciding (h : o.deciding? = some deciding) : o.takesExpressions := by
  cases o <;> first | rfl | cases h

/-- A connective has the deciding truth value if one operand has it, and the other truth value if
both operands have that. -/
theorem toBool?_value (h : o.deciding? = some deciding) (l r : Value) :
    ((o.value l r).toBool? = some deciding ↔
      l.toBool? = some deciding ∨ r.toBool? = some deciding) ∧
    ((o.value l r).toBool? = some !deciding ↔
      l.toBool? = some !deciding ∧ r.toBool? = some !deciding) := by
  cases o <;> cases h <;> simp only [value, Value.and, Value.or] <;>
    rcases l.toBool? with _ | _ | _ <;> rcases r.toBool? with _ | _ | _ <;> decide

/-- A connective has a truth value or is unknown. -/
theorem value_cases (h : o.deciding? = some deciding) (l r : Value) :
    o.value l r = .unknown ∨ ∃ b, o.value l r = .bool b := by
  cases o <;> cases h <;> simp only [value, Value.and, Value.or] <;>
    rcases l.toBool? with _ | _ | _ <;> rcases r.toBool? with _ | _ | _ <;> simp

end BinaryOperator

/-- Of the unknown value and the truth values each is known by its truth value. -/
theorem Value.eq_of_toBool? {v w : Value} (hv : v = .unknown ∨ ∃ b, v = .bool b)
    (hw : w = .unknown ∨ ∃ b, w = .bool b) (h : v.toBool? = w.toBool?) : v = w := by
  rcases hv with rfl | ⟨b, rfl⟩ <;> rcases hw with rfl | ⟨c, rfl⟩ <;> cases h <;> rfl

namespace Node

variable {o : BinaryOperator} {deciding : Bool} {m n : Node} {xs ys : List Node}
  {source : PropertySource}

/-! ## Chains -/

/-- Operators of one kind join the operands to the tree, in any bracketing. -/
inductive Joins (o : BinaryOperator) : Node → List Node → Prop
  | operand (n : Node) : Joins o n [n]
  | join {id : Nat} {op : Token} {left right : Node} {xs ys : List Node} :
    op.kind.binary? = some o → Joins o left xs → Joins o right ys →
      Joins o (.binary id op left right) (xs ++ ys)

theorem Joins.ne_nil (h : Joins o n xs) : xs ≠ [] := by
  induction h with
  | operand => exact List.cons_ne_nil _ _
  | join _ _ _ ihl _ => exact List.append_ne_nil_of_left_ne_nil ihl _

/-- A single operand is the whole tree. -/
theorem Joins.eq_of_singleton (h : Joins o n [m]) : n = m := by
  generalize hxs : [m] = xs at h
  cases h with
  | operand =>
    cases hxs
    rfl
  | join _ hl hr =>
    have hlength := congrArg List.length hxs
    have hleft := List.length_pos_iff.2 hl.ne_nil
    have hright := List.length_pos_iff.2 hr.ne_nil
    rw [List.length_append, List.length_singleton] at hlength
    omega

/-- The operands of a formed chain are formed. -/
theorem Joins.formed {ok : Token → Prop} (ho : o.takesExpressions) (h : Joins o n xs)
    (hn : n.Formed ok) : ∀ x ∈ xs, x.Formed ok := by
  induction h with
  | operand => exact List.forall_mem_singleton.2 hn
  | join hop _ _ ihl ihr =>
    cases hn with
    | binary _ _ hl hr => exact List.forall_mem_append.2 ⟨ihl hl, ihr hr⟩
    | like hlike =>
      cases hop.symm.trans hlike
      cases ho
    | isIn hisIn =>
      cases hop.symm.trans hisIn
      cases ho

/-- The term of the tree has a value with the given truth value. -/
def HasTruth (source : PropertySource) (n : Node) (b : Bool) : Prop :=
  ∃ v, n.term.value source = .ok v ∧ v.toBool? = some b

theorem hasTruth_iff {v : Value} (h : n.term.value source = .ok v) {b : Bool} :
    n.HasTruth source b ↔ v.toBool? = some b := by
  constructor
  · rintro ⟨w, hw, hb⟩
    cases h.symm.trans hw
    exact hb
  · exact fun hb => ⟨v, h, hb⟩

/-- **What a chain comes to.** It has the deciding truth value if one of its operands has it, and
the other truth value if all of them have that. A chain of more than one operand has no other known
value. -/
theorem Joins.settles (ho : o.deciding? = some deciding) (h : Joins o n xs)
    (hxs : ∀ x ∈ xs, ∃ v, x.term.value source = .ok v) :
    ∃ v, n.term.value source = .ok v ∧
      (v.toBool? = some deciding ↔ ∃ x ∈ xs, x.HasTruth source deciding) ∧
      (v.toBool? = some !deciding ↔ ∀ x ∈ xs, x.HasTruth source !deciding) ∧
      (xs = [n] ∨ v = .unknown ∨ ∃ b, v = .bool b) := by
  induction h with
  | operand n =>
    obtain ⟨v, hv⟩ := hxs n List.mem_cons_self
    refine ⟨v, hv, ?_, ?_, .inl rfl⟩
    · simp [hasTruth_iff hv]
    · simp [hasTruth_iff hv]
  | @join id op left right xs ys hop _ _ ihl ihr =>
    obtain ⟨hxs, hys⟩ := List.forall_mem_append.1 hxs
    obtain ⟨l, hl, hldecided, hlall, -⟩ := ihl hxs
    obtain ⟨r, hr, hrdecided, hrall, -⟩ := ihr hys
    obtain ⟨hdecided, hall⟩ := BinaryOperator.toBool?_value ho l r
    refine ⟨o.value l r, ?_, ?_, ?_, .inr (BinaryOperator.value_cases ho l r)⟩
    · rw [term, hop]
      exact Term.value_binary (BinaryOperator.takesExpressions_of_deciding ho) hl hr
    · rw [hdecided, hldecided, hrdecided]
      simp only [List.mem_append, or_and_right, exists_or]
    · rw [hall, hlall, hrall, List.forall_mem_append]

/-- Chains of the same operands have the same value. -/
theorem Joins.agree (ho : o.deciding? = some deciding) (hm : Joins o m xs) (hn : Joins o n ys)
    (hperm : xs.Perm ys) (hxs : ∀ x ∈ xs, ∃ v, x.term.value source = .ok v) :
    ∃ v, m.term.value source = .ok v ∧ n.term.value source = .ok v := by
  obtain ⟨v, hv, hdecided, hall, hsingle⟩ := hm.settles ho hxs
  obtain ⟨w, hw, hdecided', hall', hsingle'⟩ :=
    hn.settles ho fun y hy => hxs y (hperm.mem_iff.2 hy)
  have htruth : v.toBool? = w.toBool? := by
    refine Option.ext fun b => ?_
    by_cases hb : b = deciding
    · subst hb
      rw [hdecided, hdecided']
      simp only [hperm.mem_iff]
    · obtain rfl : b = !deciding := by cases b <;> cases deciding <;> simp_all
      rw [hall, hall']
      simp only [hperm.mem_iff]
  rcases hsingle with rfl | hv'
  · obtain rfl := List.singleton_perm.1 hperm
    rw [hn.eq_of_singleton]
    exact ⟨v, hv, hv⟩
  · rcases hsingle' with rfl | hw'
    · obtain rfl := List.perm_singleton.1 hperm
      rw [hm.eq_of_singleton]
      exact ⟨w, hw, hw⟩
    · exact ⟨v, hv, Value.eq_of_toBool? hv' hw' htruth ▸ hw⟩

/-! ## Chains in a tree -/

/-- The trees are the same but for one place, where the same operands are joined in another order
and another bracketing. -/
inductive Regrouped (o : BinaryOperator) : Node → Node → Prop
  | here {m n : Node} {xs ys : List Node} :
    Joins o m xs → Joins o n ys → xs.Perm ys → Regrouped o m n
  | left {id : Nat} {op : Token} {left left' right : Node} : Regrouped o left left' →
    Regrouped o (.binary id op left right) (.binary id op left' right)
  | right {id : Nat} {op : Token} {left right right' : Node} : Regrouped o right right' →
    Regrouped o (.binary id op left right) (.binary id op left right')
  | first {id : Nat} {op : Token} {first first' second third : Node} : Regrouped o first first' →
    Regrouped o (.ternary id op first second third) (.ternary id op first' second third)
  | second {id : Nat} {op : Token} {first second second' third : Node} :
    Regrouped o second second' →
      Regrouped o (.ternary id op first second third) (.ternary id op first second' third)
  | third {id : Nat} {op : Token} {first second third third' : Node} : Regrouped o third third' →
    Regrouped o (.ternary id op first second third) (.ternary id op first second third')
  | prefixOp {id : Nat} {op : Token} {operand operand' : Node} : Regrouped o operand operand' →
    Regrouped o (.prefixOp id op operand) (.prefixOp id op operand')
  | postfixOp {id : Nat} {op : Token} {operand operand' : Node} : Regrouped o operand operand' →
    Regrouped o (.postfixOp id op operand) (.postfixOp id op operand')
  | pattern {id : Nat} {text text' : Node} : Regrouped o text text' →
    Regrouped o (.pattern id text) (.pattern id text')
  | escapedText {id : Nat} {text text' escape : Node} : Regrouped o text text' →
    Regrouped o (.escaped id text escape) (.escaped id text' escape)
  | escapedEscape {id : Nat} {text escape escape' : Node} : Regrouped o escape escape' →
    Regrouped o (.escaped id text escape) (.escaped id text escape')

/-- A tree without operators between two operands has no chains to regroup. -/
theorem Regrouped.eq_of_no_binary (h : Regrouped o m n)
    (hm : ∀ id op left right, Node.binary id op left right ∉ m.preorder) : m = n := by
  induction h with
  | @here m n xs ys hmx hny hperm =>
    cases hmx with
    | operand =>
      obtain rfl := List.singleton_perm.1 hperm
      exact hny.eq_of_singleton.symm
    | join => exact absurd (mem_preorder_self _) (hm _ _ _ _)
  | left | right => exact absurd (mem_preorder_self _) (hm _ _ _ _)
  | prefixOp _ ih | postfixOp _ ih | pattern _ ih =>
    rw [ih fun id op left right hmem => hm id op left right (List.mem_cons_of_mem _ hmem)]
  | first _ ih | second _ ih | third _ ih | escapedText _ ih | escapedEscape _ ih =>
    rw [ih fun id op left right hmem => hm id op left right (by simp [preorder, hmem])]

theorem term_value_ternary {id : Nat} {op : Token} {negated : Bool} {first second third : Node}
    (ho : op.kind.ternaryNegated? = some negated) {v low high : Value}
    (h₁ : first.term.value source = .ok v) (h₂ : second.term.value source = .ok low)
    (h₃ : third.term.value source = .ok high) :
    (Node.ternary id op first second third).term.value source =
      .ok ((v.between low high).negateIf negated) := by
  have hvalue := @Term.value_between source negated _ _ _ _ _ _ h₁ h₂ h₃
  simpa [term, ho] using hvalue

/-- The term of a formed tree has a value for every message. -/
theorem Formed.exists_value {n : Node} (h : n.Formed Token.Valued) (source : PropertySource) :
    ∃ v, n.term.value source = .ok v := by
  have hleaf {t : Token} (ht : t.Literal) : ∃ v, t.term.value source = .ok v := by
    obtain ⟨v, -, hv⟩ := Evaluator.leaf_agrees ht source
    exact ⟨v, hv⟩
  induction h with
  | leaf hk ht => exact hleaf (ht.literal hk)
  | binary ho htakes _ _ ihl ihr =>
    obtain ⟨l, hl⟩ := ihl
    obtain ⟨r, hr⟩ := ihr
    rw [term, ho]
    exact ⟨_, Term.value_binary htakes hl hr⟩
  | like ho hk _ hp =>
    obtain ⟨l, hl⟩ := hleaf (.ident hk)
    obtain ⟨items, pieces, hterm, -, hread⟩ := Evaluator.pattern?_term hp
    rw [term, ho, hterm]
    exact ⟨_, Term.value_like hl hread⟩
  | isIn ho hk _ _ =>
    obtain ⟨l, hl⟩ := hleaf (.ident hk)
    rw [term, ho]
    exact ⟨_, Term.value_isIn _ hl⟩
  | ternary ho _ _ _ ih₁ ih₂ ih₃ =>
    obtain ⟨v, hv⟩ := ih₁
    obtain ⟨low, hlow⟩ := ih₂
    obtain ⟨high, hhigh⟩ := ih₃
    exact ⟨_, term_value_ternary ho hv hlow hhigh⟩
  | @prefixOp id op o operand ho _ ih =>
    obtain ⟨v, hv⟩ := ih
    rw [term, ho]
    exact ⟨_, Term.value_unary (Term.Unary.ofTag?_prefix o) hv⟩
  | @postfixOp id i op x negated ho hk _ =>
    obtain ⟨v, hv⟩ := hleaf (.ident hk)
    have hvalue := Term.value_unary (Term.Unary.ofTag?_nullTest negated) hv
    exact ⟨_, by simpa [term, ho] using hvalue⟩

/-- **A formed tree keeps its value when one of its chains is regrouped.** -/
theorem Regrouped.agree (ho : o.deciding? = some deciding) (h : Regrouped o m n)
    (hm : m.Formed Token.Valued) (source : PropertySource) :
    ∃ v, m.term.value source = .ok v ∧ n.term.value source = .ok v := by
  have hsame {m n : Node} (hm : m.Formed Token.Valued) (heq : m = n) :
      ∃ v, m.term.value source = .ok v ∧ n.term.value source = .ok v := by
    obtain ⟨v, hv⟩ := hm.exists_value source
    exact ⟨v, hv, heq ▸ hv⟩
  induction h with
  | here hmx hny hperm =>
    have hformed := hmx.formed (BinaryOperator.takesExpressions_of_deciding ho) hm
    exact hmx.agree ho hny hperm fun x hx => (hformed x hx).exists_value source
  | left h ih =>
    cases hm with
    | binary hop htakes hl hr =>
      obtain ⟨l, hl, hl'⟩ := ih hl
      obtain ⟨r, hr⟩ := hr.exists_value source
      rw [term, term, hop]
      exact ⟨_, Term.value_binary htakes hl hr, Term.value_binary htakes hl' hr⟩
    | like hop hk hx hp =>
      exact hsame (.like hop hk hx hp) (by rw [h.eq_of_no_binary (by simp [preorder])])
    | isIn hop hk hx hne =>
      exact hsame (.isIn hop hk hx hne) (by rw [h.eq_of_no_binary (by simp [preorder])])
  | right h ih =>
    cases hm with
    | binary hop htakes hl hr =>
      obtain ⟨l, hl⟩ := hl.exists_value source
      obtain ⟨r, hr, hr'⟩ := ih hr
      rw [term, term, hop]
      exact ⟨_, Term.value_binary htakes hl hr, Term.value_binary htakes hl hr'⟩
    | like hop hk hx hp =>
      refine hsame (.like hop hk hx hp) ?_
      rw [h.eq_of_no_binary]
      cases hp <;> simp [preorder]
    | isIn hop hk hx hne =>
      exact hsame (.isIn hop hk hx hne) (by rw [h.eq_of_no_binary (by simp [preorder])])
  | first _ ih =>
    cases hm with
    | ternary hop h₁ h₂ h₃ =>
      obtain ⟨v, hv, hv'⟩ := ih h₁
      obtain ⟨low, hlow⟩ := h₂.exists_value source
      obtain ⟨high, hhigh⟩ := h₃.exists_value source
      exact ⟨_, term_value_ternary hop hv hlow hhigh, term_value_ternary hop hv' hlow hhigh⟩
  | second _ ih =>
    cases hm with
    | ternary hop h₁ h₂ h₃ =>
      obtain ⟨v, hv⟩ := h₁.exists_value source
      obtain ⟨low, hlow, hlow'⟩ := ih h₂
      obtain ⟨high, hhigh⟩ := h₃.exists_value source
      exact ⟨_, term_value_ternary hop hv hlow hhigh, term_value_ternary hop hv hlow' hhigh⟩
  | third _ ih =>
    cases hm with
    | ternary hop h₁ h₂ h₃ =>
      obtain ⟨v, hv⟩ := h₁.exists_value source
      obtain ⟨low, hlow⟩ := h₂.exists_value source
      obtain ⟨high, hhigh, hhigh'⟩ := ih h₃
      exact ⟨_, term_value_ternary hop hv hlow hhigh, term_value_ternary hop hv hlow hhigh'⟩
  | prefixOp _ ih =>
    cases hm with
    | @prefixOp _ _ o' _ hop hoperand =>
      obtain ⟨v, hv, hv'⟩ := ih hoperand
      have htag := Term.Unary.ofTag?_prefix o'
      rw [term, term, hop]
      exact ⟨_, Term.value_unary htag hv, Term.value_unary htag hv'⟩
  | postfixOp h =>
    cases hm with
    | postfixOp hop hk hx =>
      exact hsame (.postfixOp hop hk hx) (by rw [h.eq_of_no_binary (by simp [preorder])])
  | pattern | escapedText | escapedEscape => cases hm

end Node

/-! ## Trees without places -/

def Token.unplaced (t : Token) : Token :=
  { t with offset := 0 }

namespace Node

/-- The tree without its identifiers and offsets: all of them are zero. -/
def unplaced : Node → Node
  | leaf _ token => leaf 0 token.unplaced
  | binary _ op left right => binary 0 op.unplaced left.unplaced right.unplaced
  | ternary _ op first second third =>
    ternary 0 op.unplaced first.unplaced second.unplaced third.unplaced
  | prefixOp _ op operand => prefixOp 0 op.unplaced operand.unplaced
  | postfixOp _ op operand => postfixOp 0 op.unplaced operand.unplaced
  | pattern _ text => pattern 0 text.unplaced
  | escaped _ text escape => escaped 0 text.unplaced escape.unplaced
  | list _ items => list 0 items

theorem term_unplaced (n : Node) : n.unplaced.term = n.term := by
  induction n with
  | leaf | list => rfl
  | binary _ _ _ _ ihl ihr => rw [unplaced, term, term, ihl, ihr]; rfl
  | ternary _ _ _ _ _ ih₁ ih₂ ih₃ => rw [unplaced, term, term, ih₁, ih₂, ih₃]; rfl
  | prefixOp _ _ _ ih | postfixOp _ _ _ ih => rw [unplaced, term, term, ih]; rfl
  | pattern _ _ ih => rw [unplaced, term, term, ih]
  | escaped _ _ _ iht ihe => rw [unplaced, term, term, iht, ihe]

theorem Formed.unplaced {n : Node} (h : n.Formed Token.Valued) :
    n.unplaced.Formed Token.Valued := by
  induction h with
  | leaf hk ht => exact .leaf hk ht
  | binary ho htakes _ _ ihl ihr => exact .binary ho htakes ihl ihr
  | like ho hk hx hp =>
    refine .like ho hk hx ?_
    cases hp with
    | pattern hs ht => exact .pattern hs ht
    | escaped hs ht hs' ht' => exact .escaped hs ht hs' ht'
  | isIn ho hk hx hne => exact .isIn ho hk hx hne
  | ternary ho _ _ _ ih₁ ih₂ ih₃ => exact .ternary ho ih₁ ih₂ ih₃
  | prefixOp ho _ ih => exact .prefixOp ho ih
  | postfixOp ho hk hx => exact .postfixOp ho hk hx

end Node

/-! ## Selectors -/

namespace Selector

/-- The program of a selector is read as the term of its tree. -/
theorem Made.reads_term {text : String} {hints : Hints} {s : Selector} (h : Made text hints s) :
    ∃ program, s.compile = .ok program ∧ Term.read program = .ok s.tree.term := by
  obtain ⟨program, hprogram, hread⟩ := h.read_program s.tree.readBy_self
  exact ⟨program, hprogram, by rwa [Node.termBy_self] at hread⟩

/-- **Conjunctions and disjunctions may be reordered and regrouped.** If the trees of two selectors
are the same up to identifiers and offsets, but for one place where the operands that are joined by
`AND`, or those joined by `OR`, stand in another order and another bracketing, then the selectors
and their programs have the same value for every message. -/
theorem value_regrouped (text text' : String) (hints hints' : Hints) (s s' : Selector)
    (hs : withHints text hints = .ok s) (hs' : withHints text' hints' = .ok s')
    (o : BinaryOperator) (ho : o = .and ∨ o = .or)
    (h : Node.Regrouped o s.tree.unplaced s'.tree.unplaced) :
    ∃ program program' t t', s.compile = .ok program ∧ Term.read program = .ok t ∧
      s'.compile = .ok program' ∧ Term.read program' = .ok t' ∧
      ∀ source, ∃ v, s.value source = .ok v ∧ s'.value source = .ok v ∧
        t.value source = .ok v ∧ t'.value source = .ok v := by
  have hmade := made_of_withHints hs
  have hmade' := made_of_withHints hs'
  obtain ⟨program, hprogram, hread⟩ := hmade.reads_term
  obtain ⟨program', hprogram', hread'⟩ := hmade'.reads_term
  obtain ⟨deciding, hdeciding⟩ : ∃ deciding, o.deciding? = some deciding := by
    rcases ho with rfl | rfl <;> exact ⟨_, rfl⟩
  refine ⟨program, program', _, _, hprogram, hread, hprogram', hread', fun source => ?_⟩
  obtain ⟨v, hv, hterm⟩ := hmade.value_agrees source
  obtain ⟨w, hw, hterm'⟩ := hmade'.value_agrees source
  obtain ⟨u, hu, hu'⟩ := h.agree hdeciding hmade.accepted.formed.unplaced source
  rw [Node.term_unplaced] at hu hu'
  cases hterm.symm.trans hu
  cases hterm'.symm.trans hu'
  exact ⟨v, hv, hw, hterm, hterm'⟩

/-- Three operands below a negation, from left to right and from right to left. -/
theorem value_regrouped_not :
    ∃ s s', withHints "NOT ((a AND b) AND c)" Hints.empty = .ok s ∧
      withHints "NOT (c AND (b AND a))" Hints.empty = .ok s' ∧
      Node.Regrouped .and s.tree.unplaced s'.tree.unplaced ∧
      ∀ source, ∃ v, s.value source = .ok v ∧ s'.value source = .ok v := by
  let ident (name : String) (offset : Nat) : Token := ⟨.ident, name, offset⟩
  let both (offset : Nat) : Token := ⟨.and, "AND", offset⟩
  let start (offset : Nat) : Token := ⟨.openParen, "(", offset⟩
  let stop (offset : Nat) : Token := ⟨.closeParen, ")", offset⟩
  let negation : Token := ⟨.not, "NOT", 0⟩
  let tree : Node := .prefixOp 0 negation (.binary 1 (both 15)
    (.binary 2 (both 8) (.leaf 3 (ident "a" 6)) (.leaf 4 (ident "b" 12))) (.leaf 5 (ident "c" 19)))
  let tree' : Node := .prefixOp 0 negation (.binary 1 (both 7) (.leaf 2 (ident "c" 5))
    (.binary 3 (both 14) (.leaf 4 (ident "b" 12)) (.leaf 5 (ident "a" 18))))
  have hliteral (name : String) (offset : Nat) :
      Spells [.rule .simple] [ident name offset] [.leaf 0 (ident name offset)] := .literal rfl
  have hjoin {tokens more : List Token} {m n : Node} (offset : Nat)
      (hm : Spells [.rule .simple] tokens [m]) (hn : Spells [.rule .simple] more [n]) :
      Spells [.rule .expr] (tokens ++ both offset :: more) [.binary 0 (both offset) m n] :=
    .operator (o := .and) rfl rfl hm hn
  have hgroup {tokens : List Token} {n : Node} (offset offset' : Nat)
      (h : Spells [.rule .expr] tokens [n]) :
      Spells [.rule .simple] (start offset :: (tokens ++ [stop offset'])) [n] :=
    .interior rfl rfl h
  have hspells := @Spells.prefixOp _ negation _ .not rfl (hgroup 4 20 (hjoin 15
    (hgroup 5 13 (hjoin 8 (hliteral "a" 6) (hliteral "b" 12))) (hliteral "c" 19)))
  have hspells' := @Spells.prefixOp _ negation _ .not rfl (hgroup 4 20 (hjoin 7 (hliteral "c" 5)
    (hgroup 11 19 (hjoin 14 (hliteral "b" 12) (hliteral "a" 18)))))
  have htokens : tokenize "NOT ((a AND b) AND c)" = .ok [negation, start 4, start 5, ident "a" 6,
      both 8, ident "b" 12, stop 13, both 15, ident "c" 19, stop 20] := by decide +kernel
  have htokens' : tokenize "NOT (c AND (b AND a))" = .ok [negation, start 4, ident "c" 5, both 7,
      start 11, ident "b" 12, both 14, ident "a" 18, stop 19, stop 20] := by decide +kernel
  have hparse : parse "NOT ((a AND b) AND c)" = .ok tree := by
    rw [parse, htokens]
    exact Parser.parse_of_spells (by decide) hspells
  have hparse' : parse "NOT (c AND (b AND a))" = .ok tree' := by
    rw [parse, htokens']
    exact Parser.parse_of_spells (by decide) hspells'
  obtain ⟨s, hs, htree⟩ :=
    @withHints_of_hasType _ Hints.empty _ .bool hparse ⟨rfl, by decide⟩ (.inl rfl)
  obtain ⟨s', hs', htree'⟩ :=
    @withHints_of_hasType _ Hints.empty _ .bool hparse' ⟨rfl, by decide⟩ (.inl rfl)
  have hregrouped : Node.Regrouped .and s.tree.unplaced s'.tree.unplaced := by
    rw [htree, htree']
    refine .prefixOp (.here (.join rfl (.join rfl (.operand _) (.operand _)) (.operand _))
      (.join rfl (.operand _) (.join rfl (.operand _) (.operand _))) ?_)
    exact (List.reverse_perm [_, _, _]).symm
  obtain ⟨_, _, _, _, -, -, -, -, hvalue⟩ :=
    value_regrouped _ _ _ _ s s' hs hs' .and (.inl rfl) hregrouped
  refine ⟨s, s', hs, hs', hregrouped, fun source => ?_⟩
  obtain ⟨v, hv, hv', -⟩ := hvalue source
  exact ⟨v, hv, hv'⟩

end Selector

end MessageSelector
