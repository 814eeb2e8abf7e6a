import MessageSelector.Proofs.Selection
import MessageSelector.Proofs.Subtrees

/-!
# Integer arithmetic

Arithmetic on integers is exact. What is computed of the integers of a message and of a selector is
the result over all integers (`exactValue?`, `value_exact`), and it is unknown as soon as one step
on the way divides by zero or leaves the 64-bit range (`StaysInInt64`); a later step never brings it
back.
-/

namespace MessageSelector

/-! ## Exact values -/

namespace Node

variable {source : PropertySource}

/-- Operations and signs over leaves that are integers, literals or properties of the message. -/
inductive IsIntegral (source : PropertySource) : Node → Prop
  | leaf {id : Nat} {token : Token} {n : Int64} :
    Evaluator.leafValue source token = .ok (.number (.int n)) → IsIntegral source (.leaf id token)
  | binary {id : Nat} {op : Token} {left right : Node} :
    op.kind ∈ [Token.Kind.plus, .minus, .times, .divide] → IsIntegral source left →
      IsIntegral source right → IsIntegral source (.binary id op left right)
  | prefixOp {id : Nat} {op : Token} {operand : Node} :
    op.kind ∈ [Token.Kind.plus, .minus] → IsIntegral source operand →
      IsIntegral source (.prefixOp id op operand)

/-- The value over all integers, with division towards zero. There is none if something is divided
by zero. -/
def exactValue? (source : PropertySource) : Node → Option Int
  | .leaf _ token =>
    match Evaluator.leafValue source token with
    | .ok (.number (.int n)) => some n.toInt
    | _ => none
  | .binary _ op left right =>
    match op.kind, left.exactValue? source, right.exactValue? source with
    | .plus, some m, some n => some (m + n)
    | .minus, some m, some n => some (m - n)
    | .times, some m, some n => some (m * n)
    | .divide, some m, some n => if n = 0 then none else some (m.tdiv n)
    | _, _, _ => none
  | .prefixOp _ op operand =>
    match op.kind, operand.exactValue? source with
    | .plus, some n => some n
    | .minus, some n => some (-n)
    | _, _ => none
  | _ => none

/-- Every part of the tree has an exact value, and it is in the 64-bit range. -/
def StaysInInt64 (source : PropertySource) (n : Node) : Prop :=
  ∀ m ∈ n.preorder, ∃ k, m.exactValue? source = some k ∧ Decimal.InInt64 k

theorem staysInInt64_iff {n : Node} :
    n.StaysInInt64 source ↔ (∃ k, n.exactValue? source = some k ∧ Decimal.InInt64 k) ∧
      ∀ c ∈ n.children, c.StaysInInt64 source := by
  simp only [StaysInInt64, mem_preorder (n := n)]
  constructor
  · exact fun h => ⟨h n (.inl rfl), fun c hc m hm => h m (.inr ⟨c, hc, hm⟩)⟩
  · rintro ⟨hn, hchildren⟩ m (rfl | ⟨c, hc, hm⟩)
    · exact hn
    · exact hchildren c hc m hm

/-- The exact value of an operation is that of the operation on the integers. -/
theorem exactValue?_binary {id : Nat} {op : Token} {a : Arithmetic} {left right : Node} {m n : Int}
    (ha : op.kind.arithmetic? = some a) (hl : left.exactValue? source = some m)
    (hr : right.exactValue? source = some n) :
    (binary id op left right).exactValue? source = Number.onIntegers? a m n := by
  rw [exactValue?, hl, hr]
  cases hkind : op.kind <;> rw [hkind] at ha <;> cases ha <;> rfl

end Node

/-! ## Values are exact -/

/-- The node has its exact value, or it is unknown and the exact value of some part is none or
outside the 64-bit range. -/
inductive Evaluator.Computes (source : PropertySource) (n : Node) : Value → Prop
  | exact {c : Int64} : n.StaysInInt64 source → n.exactValue? source = some c.toInt →
    Computes source n (.number (.int c))
  | unknown : ¬ n.StaysInInt64 source → Computes source n .unknown

namespace Evaluator

variable {source : PropertySource} {n : Node}

/-- A node whose operands stay in the range computes the word of its exact value, if there is
one. -/
theorem computes_fit {r : Option Int} (hexact : n.exactValue? source = r)
    (hchildren : ∀ c ∈ n.children, c.StaysInInt64 source) :
    Computes source n (((r.bind Decimal.fitInt64).map Number.int).elim .unknown .number) := by
  have hstays := @Node.staysInInt64_iff source n
  cases r with
  | none =>
    refine .unknown fun h => ?_
    obtain ⟨⟨k, hk, -⟩, -⟩ := hstays.1 h
    rw [hexact] at hk
    cases hk
  | some k =>
    rw [Option.bind_some]
    cases hfit : Decimal.fitInt64 k with
    | none =>
      refine .unknown fun h => Decimal.fitInt64_eq_none.1 hfit ?_
      obtain ⟨⟨k', hk', hrange⟩, -⟩ := hstays.1 h
      rw [hexact] at hk'
      cases hk'
      exact hrange
    | some c =>
      obtain ⟨hrange, rfl⟩ := Decimal.fitInt64_eq_some.1 hfit
      exact .exact (hstays.2 ⟨⟨_, hexact, hrange⟩, hchildren⟩) hexact

/-- An unknown operand makes an operation unknown. -/
theorem computes_unknown {c : Node} (hc : c ∈ n.children) (h : ¬ c.StaysInInt64 source) :
    Computes source n .unknown :=
  .unknown fun hn => h ((Node.staysInInt64_iff.1 hn).2 c hc)

theorem Computes.arith {id : Nat} {op : Token} {a : Arithmetic} {left right : Node} {l r : Value}
    (ha : op.kind.arithmetic? = some a) (hl : Computes source left l)
    (hr : Computes source right r) : Computes source (.binary id op left right) (l.arith a r) := by
  have hleft : left ∈ (Node.binary id op left right).children := by simp [Node.children]
  have hright : right ∈ (Node.binary id op left right).children := by simp [Node.children]
  cases hl with
  | unknown hl => exact computes_unknown hleft hl
  | @exact m hl hm =>
    cases hr with
    | unknown hr => exact computes_unknown hright hr
    | @exact n hr hn =>
      have hexact : (Node.binary id op left right).exactValue? source =
          Number.onIntegers? a m.toInt n.toInt := Node.exactValue?_binary ha hm hn
      have h := computes_fit hexact (List.forall_mem_cons.2 ⟨hl, List.forall_mem_singleton.2 hr⟩)
      have hvalue : (Value.number (.int m)).arith a (.number (.int n)) =
          (((Number.onIntegers? a m.toInt n.toInt).bind Decimal.fitInt64).map Number.int).elim
            .unknown .number := by
        simp only [Value.arith, Value.toNumber?, Number.arith?]
        cases ((Number.onIntegers? a m.toInt n.toInt).bind Decimal.fitInt64).map Number.int <;> rfl
      rwa [hvalue]

theorem Computes.negate {id : Nat} {op : Token} {operand : Node} {v : Value}
    (hop : op.kind = .minus) (hv : Computes source operand v) :
    Computes source (.prefixOp id op operand) v.negate := by
  cases hv with
  | unknown h => exact computes_unknown List.mem_cons_self h
  | @exact n h hn =>
    have hexact : (Node.prefixOp id op operand).exactValue? source = some (-n.toInt) := by
      rw [Node.exactValue?, hop, hn]
    have h := computes_fit hexact (List.forall_mem_singleton.2 h)
    have hvalue : (Value.number (.int n)).negate =
        (((some (-n.toInt)).bind Decimal.fitInt64).map Number.int).elim .unknown .number := by
      rw [Value.negate, Value.toNumber?, Option.bind_some, Option.bind_some, Number.negate?]
      cases (Decimal.fitInt64 (-n.toInt)).map Number.int <;> rfl
    rwa [hvalue]

theorem Computes.plus {id : Nat} {op : Token} {operand : Node} {v : Value}
    (hop : op.kind = .plus) (hv : Computes source operand v) :
    Computes source (.prefixOp id op operand) v.plus := by
  cases hv with
  | unknown h => exact computes_unknown List.mem_cons_self h
  | @exact n h hn =>
    have hexact : (Node.prefixOp id op operand).exactValue? source = some n.toInt := by
      rw [Node.exactValue?, hop, hn]
    exact .exact (Node.staysInInt64_iff.2
      ⟨⟨_, hexact, Decimal.inInt64_toInt n⟩, List.forall_mem_singleton.2 h⟩) hexact

/-- A tree over integers has its exact value, or it is unknown. -/
theorem value_computes {types : TypeTable} {evaluator : Evaluator}
    (htypes : ∀ i, types.get i ≠ .invalid) (h : n.IsIntegral source) :
    ∃ v, evaluator.value types source n = .ok v ∧ Computes source n v := by
  induction h with
  | @leaf id token c hc =>
    have hexact : (Node.leaf id token).exactValue? source = some c.toInt := by
      rw [Node.exactValue?, hc]
    refine ⟨_, value_leaf htypes hc, .exact ?_ hexact⟩
    exact Node.staysInInt64_iff.2
      ⟨⟨_, hexact, Decimal.inInt64_toInt c⟩, List.forall_mem_nil _⟩
  | @binary id op left right hop _ _ ihl ihr =>
    obtain ⟨l, hl, hleft⟩ := ihl
    obtain ⟨r, hr, hright⟩ := ihr
    obtain ⟨a, ha, ho⟩ : ∃ a, op.kind.arithmetic? = some a ∧
        op.kind.binary? = some (.arith a) := by
      simp only [List.mem_cons, List.not_mem_nil, or_false] at hop
      rcases hop with hop | hop | hop | hop <;> rw [hop] <;> exact ⟨_, rfl, rfl⟩
    exact ⟨_, value_binary rfl ho htypes hl hr, hleft.arith ha hright⟩
  | @prefixOp id op operand hop _ ih =>
    obtain ⟨v, hv, hoperand⟩ := ih
    simp only [List.mem_cons, List.not_mem_nil, or_false] at hop
    rcases hop with hop | hop
    · have ho : op.kind.prefix? = some .plus := by rw [hop]; rfl
      exact ⟨_, value_prefixOp ho htypes hv, hoperand.plus hop⟩
    · have ho : op.kind.prefix? = some .minus := by rw [hop]; rfl
      exact ⟨_, value_prefixOp ho htypes hv, hoperand.negate hop⟩

end Evaluator

namespace Selector

/-- **Integer arithmetic never wraps.** A part of a selector that is made of operations and signs
over integers is the integer `c` if and only if every part of it has an exact value in the 64-bit
range and its own is `c`; otherwise it is unknown. -/
theorem value_exact (text : String) (hints : Hints) (s : Selector)
    (hs : withHints text hints = .ok s) (source : PropertySource) :
    ∀ n ∈ s.tree.preorder, n.IsIntegral source →
      (∀ c : Int64, s.evaluator.value s.types source n = .ok (.number (.int c)) ↔
        (∀ m ∈ n.preorder, ∃ k, m.exactValue? source = some k ∧ Decimal.InInt64 k) ∧
          n.exactValue? source = some c.toInt) ∧
      ((¬ ∀ m ∈ n.preorder, ∃ k, m.exactValue? source = some k ∧ Decimal.InInt64 k) →
        s.evaluator.value s.types source n = .ok .unknown) := by
  intro n _ hintegral
  have hmade := made_of_withHints hs
  have htypes := Node.get_ne_invalid hmade.check_eq hmade.accept_eq
  obtain ⟨v, hv, hcomputes⟩ :=
    @Evaluator.value_computes source n s.types s.evaluator htypes hintegral
  rw [hv]
  cases hcomputes with
  | @exact c hstays hexact =>
    refine ⟨fun d => ⟨fun h => ?_, fun h => ?_⟩, fun h => absurd hstays h⟩
    · cases h
      exact ⟨hstays, hexact⟩
    · have hword : c.toInt = d.toInt := Option.some.inj (hexact.symm.trans h.2)
      rw [Int64.toInt_inj.1 hword]
  | unknown hstays =>
    refine ⟨fun d => ⟨fun h => ?_, fun h => absurd h.1 hstays⟩, fun _ => rfl⟩
    cases Except.ok.inj h

/-- A sum that leaves the range is not brought back by what is subtracted from it. -/
theorem value_exact_difference : ∃ s n, withHints "((x + x) - x) = x" Hints.empty = .ok s ∧
    n ∈ s.tree.preorder ∧
    s.evaluator.value s.types (fun _ => some (.number (.int 5))) n = .ok (.number (.int 5)) ∧
    s.evaluator.value s.types (fun _ => some (.number (.int Int64.maxValue))) n =
      .ok .unknown := by
  let x (offset : Nat) : Token := ⟨.ident, "x", offset⟩
  let plus : Token := ⟨.plus, "+", 4⟩
  let minus : Token := ⟨.minus, "-", 9⟩
  let equal : Token := ⟨.equal, "=", 14⟩
  have hsum : Spells [.rule .simple]
      [⟨.openParen, "(", 1⟩, x 2, plus, x 6, ⟨.closeParen, ")", 7⟩]
      [.binary 0 plus (.leaf 0 (x 2)) (.leaf 0 (x 6))] :=
    .interior rfl rfl (@Spells.operator [x 2] [x 6] plus _ _ (.arith .add) rfl rfl
      (.literal rfl) (.literal rfl))
  have hdifference := @Spells.interior _ _ ⟨.openParen, "(", 0⟩ ⟨.closeParen, ")", 12⟩ rfl rfl
    (@Spells.operator _ [x 11] minus _ _ (.arith .subtract) rfl rfl hsum (.literal rfl))
  have hspells := @Spells.operator _ [x 16] equal _ _ (.compare .equal) rfl rfl hdifference
    (.literal rfl)
  have htokens : tokenize "((x + x) - x) = x" = .ok
      [⟨.openParen, "(", 0⟩, ⟨.openParen, "(", 1⟩, x 2, plus, x 6, ⟨.closeParen, ")", 7⟩, minus,
        x 11, ⟨.closeParen, ")", 12⟩, equal, x 16] := by
    decide +kernel
  let sum : Node := .binary 2 plus (.leaf 3 (x 2)) (.leaf 4 (x 6))
  let difference : Node := .binary 1 minus sum (.leaf 5 (x 11))
  have hparse : parse "((x + x) - x) = x" =
      .ok (.binary 0 equal difference (.leaf 6 (x 16))) := by
    rw [parse, htokens]
    exact Parser.parse_of_spells (by decide) hspells
  have htype : Typing.HasType Hints.empty (.binary 0 equal difference (.leaf 6 (x 16))) .bool :=
    ⟨rfl, by decide⟩
  obtain ⟨s, hs, htree⟩ := withHints_of_hasType hparse htype (.inl rfl)
  have hmem : difference ∈ s.tree.preorder := by
    rw [htree]
    exact Node.mem_preorder_of_child List.mem_cons_self (Node.mem_preorder_self _)
  have hintegral (n : Int64) : difference.IsIntegral fun _ => some (.number (.int n)) :=
    .binary (by decide) (.binary (by decide) (.leaf rfl) (.leaf rfl)) (.leaf rfl)
  have hvalue (n : Int64) := value_exact _ _ s hs (fun _ => some (.number (.int n))) difference
    hmem (hintegral n)
  refine ⟨s, difference, hs, hmem, ((hvalue 5).1 5).2 ⟨?_, rfl⟩, (hvalue Int64.maxValue).2 ?_⟩
  · have hfive : Decimal.InInt64 5 := ⟨by decide, by decide⟩
    have hten : Decimal.InInt64 10 := ⟨by decide, by decide⟩
    simp only [difference, sum, Node.preorder, List.cons_append, List.nil_append,
      List.forall_mem_cons]
    exact ⟨⟨5, rfl, hfive⟩, ⟨10, rfl, hten⟩, ⟨5, rfl, hfive⟩, ⟨5, rfl, hfive⟩, ⟨5, rfl, hfive⟩,
      List.forall_mem_nil _⟩
  · intro h
    obtain ⟨k, hk, hrange⟩ := h sum (by decide)
    have htwice : k = 2 ^ 64 - 2 := (Option.some.inj hk).symm
    rw [htwice] at hrange
    exact absurd hrange.2 (by decide)

end Selector

end MessageSelector
