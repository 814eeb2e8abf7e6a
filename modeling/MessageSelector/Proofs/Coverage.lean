import MessageSelector.Operator
import MessageSelector.Proofs.OrderedChoice

/-!
# Coverage

How the tokens of a selector lie in its tree (`Covers`, `IsSentence.tree_covers`). Every token
stands in the tree, once and in its place from left to right, but for brackets, the commas of a
list, and the second word of `BETWEEN` and of a pattern. An operand of an operator stands in
brackets unless it binds more tightly than the operator (`BinaryOperator.rule`); only the right
operand may also bind as tightly, so that chains are grouped to the right.
-/

namespace MessageSelector

open MessageSelector.Derivation (Derives)

/-! ## The rule of an operator -/

/-- Whether both operands of an operator are expressions. -/
def BinaryOperator.takesExpressions : BinaryOperator → Bool
  | like _ | isIn _ => false
  | _ => true

/-- The rule that joins operands by an operator. -/
def BinaryOperator.rule : BinaryOperator → Rule
  | or => .orExpr
  | and => .andExpr
  | compare _ => .cmpExpr
  | arith .add | arith .subtract => .plusExpr
  | arith .multiply | arith .divide => .multExpr
  | like _ | isIn _ => .simple

/-- The rule that puts an operator in front of its operand. -/
def PrefixOperator.rule : PrefixOperator → Rule
  | not => .notExpr
  | minus | plus => .signExpr

theorem Token.Kind.binary?_of_comparison {kind : Token.Kind} {c : Comparison}
    (h : kind.comparison? = some c) : kind.binary? = some (.compare c) := by
  cases kind <;> simp_all [Token.Kind.binary?, Token.Kind.comparison?]

theorem Token.string?_of_kind {t : Token} (h : t.kind = .string) :
    t.string? = some (Text.unquote t.text) := by
  simp [Token.string?, Token.payload?, h]

/-! ## Trees over tokens -/

namespace Node

/-- The tokens are string literals of the strings, with commas between them. -/
inductive ItemsCover : List String → List Token → Prop
  | one {t : Token} : t.kind = .string → ItemsCover [Text.unquote t.text] [t]
  | more {t comma : Token} {items : List String} {tokens : List Token} : t.kind = .string →
    comma.kind = .comma → ItemsCover items tokens →
      ItemsCover (Text.unquote t.text :: items) (t :: comma :: tokens)

/-- The tokens are those of the right operand of `LIKE`. -/
inductive PatternCovers : Node → List Token → Prop
  | pattern {id i : Nat} {text : Token} :
    text.kind = .string → PatternCovers (.pattern id (.leaf i text)) [text]
  | escaped {id i j : Nat} {text word escape : Token} :
    text.kind = .string → word.kind = .escape → escape.kind = .string →
      PatternCovers (.escaped id (.leaf i text) (.leaf j escape)) [text, word, escape]

/-- The tokens are those of an expression, whose outermost operator outside brackets belongs to the
rule. -/
inductive Covers : Rule → Node → List Token → Prop
  | leaf {id : Nat} {t : Token} : t.kind.isOperand → Covers .simple (.leaf id t) [t]
  | brackets {r : Rule} {n : Node} {start stop : Token} {tokens : List Token} :
    start.kind = .openParen → stop.kind = .closeParen → Covers r n tokens →
      Covers .simple n (start :: (tokens ++ [stop]))
  | binary {r s : Rule} {id : Nat} {op : Token} {o : BinaryOperator} {left right : Node}
    {before after : List Token} :
    op.kind.binary? = some o → o.takesExpressions → r.rank < o.rule.rank →
      s.rank ≤ o.rule.rank → Covers r left before → Covers s right after →
        Covers o.rule (.binary id op left right) (before ++ op :: after)
  | like {id i : Nat} {op x : Token} {negated : Bool} {p : Node} {after : List Token} :
    op.kind.binary? = some (.like negated) → x.kind = .ident → PatternCovers p after →
      Covers .simple (.binary id op (.leaf i x) p) (x :: op :: after)
  | isIn {id i j : Nat} {op x start stop : Token} {negated : Bool} {items : List String}
    {after : List Token} :
    op.kind.binary? = some (.isIn negated) → x.kind = .ident → start.kind = .openParen →
      stop.kind = .closeParen → ItemsCover items after →
        Covers .simple (.binary id op (.leaf i x) (.list j items))
          (x :: op :: start :: (after ++ [stop]))
  | ternary {r s u : Rule} {id : Nat} {op word : Token} {negated : Bool}
    {first second third : Node} {before between after : List Token} :
    op.kind.ternaryNegated? = some negated → word.kind = .and → r.rank < Rule.cmpExpr.rank →
      s.rank < Rule.cmpExpr.rank → u.rank < Rule.cmpExpr.rank → Covers r first before →
        Covers s second between → Covers u third after →
          Covers .cmpExpr (.ternary id op first second third)
            (before ++ op :: (between ++ word :: after))
  | prefixOp {r : Rule} {id : Nat} {op : Token} {o : PrefixOperator} {operand : Node}
    {after : List Token} :
    op.kind.prefix? = some o → r.rank < o.rule.rank → Covers r operand after →
      Covers o.rule (.prefixOp id op operand) (op :: after)
  | postfixOp {id i : Nat} {op x : Token} {negated : Bool} :
    op.kind.postfixNegated? = some negated → x.kind = .ident →
      Covers .simple (.postfixOp id op (.leaf i x)) [x, op]

theorem PatternCovers.numberFrom {n : Node} {tokens : List Token} (h : n.PatternCovers tokens)
    (next : Nat) : PatternCovers (n.numberFrom next).1 tokens := by
  cases h with
  | pattern hk => exact .pattern hk
  | escaped hk hword hk' => exact .escaped hk hword hk'

theorem Covers.numberFrom {r : Rule} {n : Node} {tokens : List Token} (h : Covers r n tokens)
    (next : Nat) : Covers r (n.numberFrom next).1 tokens := by
  induction h generalizing next with
  | leaf hk => exact .leaf hk
  | brackets hstart hstop _ ih => exact .brackets hstart hstop (ih next)
  | binary ho htakes hr hs _ _ ihl ihr => exact .binary ho htakes hr hs (ihl _) (ihr _)
  | like ho hk hp => exact .like ho hk (hp.numberFrom _)
  | isIn ho hk hstart hstop hitems => exact .isIn ho hk hstart hstop hitems
  | ternary ho hword hr hs hu _ _ _ ih₁ ih₂ ih₃ =>
    exact .ternary ho hword hr hs hu (ih₁ _) (ih₂ _) (ih₃ _)
  | prefixOp ho hr _ ih => exact .prefixOp ho hr (ih _)
  | postfixOp ho hk => exact .postfixOp ho hk

end Node

/-! ## The actions build trees over their tokens -/

namespace Symbol

/-- The tree of a match of a symbol, and the tokens of the match. -/
def Covers : Symbol → Node → List Token → Prop
  | .token kind, n, tokens => ∃ t, n = .leaf 0 t ∧ tokens = [t] ∧ t.kind = kind
  | .rule .cmpOp, n, tokens =>
    ∃ t c, n = .leaf 0 t ∧ tokens = [t] ∧ t.kind.comparison? = some c
  | .rule .addOp, n, tokens =>
    ∃ t, n = .leaf 0 t ∧ tokens = [t] ∧ (t.kind = .plus ∨ t.kind = .minus)
  | .rule .mulOp, n, tokens =>
    ∃ t, n = .leaf 0 t ∧ tokens = [t] ∧ (t.kind = .times ∨ t.kind = .divide)
  | .rule .number, n, tokens => ∃ t, n = .leaf 0 t ∧ tokens = [t] ∧ t.kind.isOperand
  | .rule .pattern, n, tokens => n.PatternCovers tokens
  | .rule .stringList, n, tokens => ∃ items, n = .list 0 items ∧ Node.ItemsCover items tokens
  | .rule r, n, tokens => ∃ s, s.rank ≤ r.rank ∧ Node.Covers s n tokens

/-- The trees of the matches of symbols, and the tokens of all matches. -/
inductive CoversAll : List Symbol → List Node → List Token → Prop
  | nil : CoversAll [] [] []
  | cons {x : Symbol} {symbols : List Symbol} {n : Node} {nodes : List Node}
    {tokens more : List Token} : x.Covers n tokens → CoversAll symbols nodes more →
      CoversAll (x :: symbols) (n :: nodes) (tokens ++ more)

end Symbol

open MessageSelector.Symbol (CoversAll)

section Build

variable {nodes : List Node} {tokens : List Token}

private theorem covers_one {x : Symbol} (h : CoversAll [x] nodes tokens) :
    ∃ n, nodes = [n] ∧ x.Covers n tokens := by
  cases h with
  | @cons _ _ n _ ts _ hn hrest =>
    cases hrest
    rw [List.append_nil]
    exact ⟨n, rfl, hn⟩

private theorem covers_two {x y : Symbol} (h : CoversAll [x, y] nodes tokens) :
    ∃ m n ts us, nodes = [m, n] ∧ tokens = ts ++ us ∧ x.Covers m ts ∧ y.Covers n us := by
  cases h with
  | @cons _ _ m _ ts us hm hrest =>
    obtain ⟨n, rfl, hn⟩ := covers_one hrest
    exact ⟨m, n, ts, us, rfl, rfl, hm, hn⟩

private theorem covers_three {x y z : Symbol} (h : CoversAll [x, y, z] nodes tokens) :
    ∃ l m n ts us vs, nodes = [l, m, n] ∧ tokens = ts ++ (us ++ vs) ∧ x.Covers l ts ∧
      y.Covers m us ∧ z.Covers n vs := by
  cases h with
  | @cons _ _ l _ ts _ hl hrest =>
    obtain ⟨m, n, us, vs, rfl, rfl, hm, hn⟩ := covers_two hrest
    exact ⟨l, m, n, ts, us, vs, rfl, rfl, hl, hm, hn⟩

private theorem covers_five {v w x y z : Symbol} (h : CoversAll [v, w, x, y, z] nodes tokens) :
    ∃ j k l m n rs ss ts us vs, nodes = [j, k, l, m, n] ∧
      tokens = rs ++ (ss ++ (ts ++ (us ++ vs))) ∧ v.Covers j rs ∧ w.Covers k ss ∧ x.Covers l ts ∧
        y.Covers m us ∧ z.Covers n vs := by
  cases h with
  | @cons _ _ j _ rs _ hj hrest =>
    cases hrest with
    | @cons _ _ k _ ss _ hk hrest =>
      obtain ⟨l, m, n, ts, us, vs, rfl, rfl, hl, hm, hn⟩ := covers_three hrest
      exact ⟨j, k, l, m, n, rs, ss, ts, us, vs, rfl, rfl, hj, hk, hl, hm, hn⟩

/-- Operands of an operator, as its rule takes them. -/
private theorem covers_binary {r s s' : Rule} {op : Token} {o : BinaryOperator} {m n : Node}
    {ts us : List Token} (ho : op.kind.binary? = some o) (htakes : o.takesExpressions)
    (hrule : o.rule = r) (hs : s.rank < r.rank) (hs' : s'.rank ≤ r.rank)
    (hm : ∃ q, q.rank ≤ s.rank ∧ Node.Covers q m ts)
    (hn : ∃ q, q.rank ≤ s'.rank ∧ Node.Covers q n us) :
    ∃ q, q.rank ≤ r.rank ∧ Node.Covers q (.binary 0 op m n) (ts ++ op :: us) := by
  subst hrule
  obtain ⟨q, hq, hm⟩ := hm
  obtain ⟨q', hq', hn⟩ := hn
  exact ⟨o.rule, Nat.le_refl _, .binary ho htakes (Nat.lt_of_le_of_lt hq hs)
    (Nat.le_trans hq' hs') hm hn⟩

private theorem build_operand {kind : Token.Kind} (hk : kind.isOperand)
    (h : CoversAll [.token kind] nodes tokens) :
    ∃ n, Action.collapse.build nodes = .ok n ∧ (Symbol.rule .simple).Covers n tokens := by
  obtain ⟨_, rfl, t, rfl, rfl, ht⟩ := covers_one h
  exact ⟨_, rfl, .simple, Nat.le_refl _, .leaf (by rwa [ht])⟩

private theorem build_nullTest {kind : Token.Kind} {negated : Bool}
    (hkind : kind.postfixNegated? = some negated)
    (h : CoversAll [.token .ident, .token kind] nodes tokens) :
    ∃ n, Action.postfixOp.build nodes = .ok n ∧ (Symbol.rule .simple).Covers n tokens := by
  obtain ⟨_, _, _, _, rfl, rfl, ⟨x, rfl, rfl, hk⟩, ⟨op, rfl, rfl, hop⟩⟩ := covers_two h
  exact ⟨_, rfl, .simple, Nat.le_refl _, .postfixOp (by rw [hop, hkind]) hk⟩

private theorem build_isIn {kind : Token.Kind} {negated : Bool}
    (hkind : kind.binary? = some (.isIn negated))
    (h : CoversAll [.token .ident, .token kind, .token .openParen, .rule .stringList,
      .token .closeParen] nodes tokens) :
    ∃ n, Action.binaryList.build nodes = .ok n ∧ (Symbol.rule .simple).Covers n tokens := by
  obtain ⟨_, _, _, _, _, _, _, _, _, _, rfl, rfl, ⟨x, rfl, rfl, hk⟩, ⟨op, rfl, rfl, hop⟩,
    ⟨_, -, rfl, hstart⟩, ⟨items, rfl, hitems⟩, ⟨_, -, rfl, hstop⟩⟩ := covers_five h
  exact ⟨_, rfl, .simple, Nat.le_refl _, .isIn (by rw [hop, hkind]) hk hstart hstop hitems⟩

private theorem build_like {kind : Token.Kind} {negated : Bool}
    (hkind : kind.binary? = some (.like negated))
    (h : CoversAll [.token .ident, .token kind, .rule .pattern] nodes tokens) :
    ∃ n, Action.binary.build nodes = .ok n ∧ (Symbol.rule .simple).Covers n tokens := by
  obtain ⟨_, _, p, _, _, _, rfl, rfl, ⟨x, rfl, rfl, hk⟩, ⟨op, rfl, rfl, hop⟩, hp⟩ :=
    covers_three h
  exact ⟨_, rfl, .simple, Nat.le_refl _, .like (by rw [hop, hkind]) hk hp⟩

private theorem build_between {kind : Token.Kind} {negated : Bool}
    (hkind : kind.ternaryNegated? = some negated)
    (h : CoversAll [.rule .arith, .token kind, .rule .arith, .token .and, .rule .arith] nodes
      tokens) :
    ∃ n, Action.ternary.build nodes = .ok n ∧ (Symbol.rule .cmpExpr).Covers n tokens := by
  obtain ⟨v, _, l, _, u, _, _, _, _, _, rfl, rfl, ⟨s, hs, hv⟩, ⟨op, rfl, rfl, hop⟩,
    ⟨s', hs', hl⟩, ⟨_, -, rfl, hword⟩, ⟨s'', hs'', hu⟩⟩ := covers_five h
  exact ⟨_, rfl, .cmpExpr, Nat.le_refl _, .ternary (by rw [hop, hkind]) hword
    (Nat.lt_succ_of_le hs) (Nat.lt_succ_of_le hs') (Nat.lt_succ_of_le hs'') hv hl hu⟩

private theorem build_simple {a : Alternative} (ha : a ∈ Rule.simple.alternatives)
    (h : CoversAll a.symbols nodes tokens) :
    ∃ n, a.action.build nodes = .ok n ∧ (Symbol.rule .simple).Covers n tokens := by
  simp only [Rule.alternatives, List.mem_cons, List.not_mem_nil, or_false] at ha
  rcases ha with rfl | rfl | rfl | rfl | rfl | rfl | rfl | rfl | rfl | rfl | rfl | rfl
  · obtain ⟨_, n, _, _, ts, _, rfl, rfl, ⟨start, -, rfl, hstart⟩, ⟨s, -, hn⟩,
      ⟨stop, -, rfl, hstop⟩⟩ := covers_three h
    exact ⟨n, rfl, .simple, Nat.le_refl _, .brackets hstart hstop hn⟩
  · exact build_operand rfl h
  · exact build_operand rfl h
  · exact build_operand rfl h
  · obtain ⟨_, rfl, t, rfl, rfl, hk⟩ := covers_one h
    exact ⟨_, rfl, .simple, Nat.le_refl _, .leaf hk⟩
  · exact build_nullTest rfl h
  · exact build_nullTest rfl h
  · exact build_isIn rfl h
  · exact build_isIn rfl h
  · exact build_like rfl h
  · exact build_like rfl h
  · exact build_operand rfl h

/-- From matches of the symbols of an alternative, its action builds the tree of a match of the
rule. -/
theorem Rule.build_covers {r : Rule} {a : Alternative} (ha : a ∈ r.alternatives)
    (h : CoversAll a.symbols nodes tokens) :
    ∃ n, a.action.build nodes = .ok n ∧ (Symbol.rule r).Covers n tokens := by
  by_cases hr : r = .simple
  · subst hr
    exact build_simple ha h
  -- An alternative of one symbol passes its tree on to a rule of higher rank.
  have lift {s s' : Rule} {n : Node} (hs : s.rank ≤ s'.rank)
      (hn : ∃ q, q.rank ≤ s.rank ∧ Node.Covers q n tokens) :
      ∃ q, q.rank ≤ s'.rank ∧ Node.Covers q n tokens := by
    obtain ⟨q, hq, hn⟩ := hn
    exact ⟨q, Nat.le_trans hq hs, hn⟩
  cases r <;> simp only [Rule.alternatives, List.mem_cons, List.not_mem_nil, or_false] at ha
  case simple => exact absurd rfl hr
  case expr | arith =>
    subst ha
    obtain ⟨n, rfl, hn⟩ := covers_one h
    exact ⟨n, rfl, lift (by decide) hn⟩
  case orExpr | andExpr =>
    -- The left operand is a match of a lower rule and the right one of the same rule again.
    rcases ha with rfl | rfl
    · obtain ⟨l, _, r, _, _, _, rfl, rfl, hl, ⟨op, rfl, rfl, hop⟩, hr⟩ := covers_three h
      exact ⟨_, rfl, covers_binary (by rw [hop]; rfl) rfl rfl (by decide) (by decide) hl hr⟩
    · obtain ⟨n, rfl, hn⟩ := covers_one h
      exact ⟨n, rfl, lift (by decide) hn⟩
  case notExpr =>
    rcases ha with rfl | rfl
    · obtain ⟨_, n, _, _, rfl, rfl, ⟨op, rfl, rfl, hop⟩, ⟨s, hs, hn⟩⟩ := covers_two h
      have ho : op.kind.prefix? = some .not := by rw [hop]; rfl
      exact ⟨_, rfl, .notExpr, Nat.le_refl _, .prefixOp ho (Nat.lt_succ_of_le hs) hn⟩
    · obtain ⟨n, rfl, hn⟩ := covers_one h
      exact ⟨n, rfl, lift (by decide) hn⟩
  case cmpExpr =>
    rcases ha with rfl | rfl | rfl | rfl
    · obtain ⟨l, _, r, _, _, _, rfl, rfl, hl, ⟨op, c, rfl, rfl, hc⟩, hr⟩ := covers_three h
      exact ⟨_, rfl, covers_binary (Token.Kind.binary?_of_comparison hc) rfl rfl (by decide)
        (by decide) hl hr⟩
    · exact build_between rfl h
    · exact build_between rfl h
    · obtain ⟨n, rfl, hn⟩ := covers_one h
      exact ⟨n, rfl, lift (by decide) hn⟩
  case cmpOp =>
    rcases ha with rfl | rfl | rfl | rfl | rfl | rfl <;>
    · obtain ⟨_, rfl, t, rfl, rfl, hk⟩ := covers_one h
      exact ⟨_, rfl, t, _, rfl, rfl, by rw [hk]; rfl⟩
  case plusExpr =>
    rcases ha with rfl | rfl
    · obtain ⟨l, _, r, _, _, _, rfl, rfl, hl, ⟨op, rfl, rfl, hop | hop⟩, hr⟩ := covers_three h
      · exact ⟨_, rfl, covers_binary (by rw [hop]; rfl) rfl rfl (by decide) (by decide) hl hr⟩
      · exact ⟨_, rfl, covers_binary (by rw [hop]; rfl) rfl rfl (by decide) (by decide) hl hr⟩
    · obtain ⟨n, rfl, hn⟩ := covers_one h
      exact ⟨n, rfl, lift (by decide) hn⟩
  case addOp =>
    rcases ha with rfl | rfl
    · obtain ⟨_, rfl, t, rfl, rfl, hk⟩ := covers_one h
      exact ⟨_, rfl, t, rfl, rfl, .inl hk⟩
    · obtain ⟨_, rfl, t, rfl, rfl, hk⟩ := covers_one h
      exact ⟨_, rfl, t, rfl, rfl, .inr hk⟩
  case multExpr =>
    rcases ha with rfl | rfl
    · obtain ⟨l, _, r, _, _, _, rfl, rfl, hl, ⟨op, rfl, rfl, hop | hop⟩, hr⟩ := covers_three h
      · exact ⟨_, rfl, covers_binary (by rw [hop]; rfl) rfl rfl (by decide) (by decide) hl hr⟩
      · exact ⟨_, rfl, covers_binary (by rw [hop]; rfl) rfl rfl (by decide) (by decide) hl hr⟩
    · obtain ⟨n, rfl, hn⟩ := covers_one h
      exact ⟨n, rfl, lift (by decide) hn⟩
  case mulOp =>
    rcases ha with rfl | rfl
    · obtain ⟨_, rfl, t, rfl, rfl, hk⟩ := covers_one h
      exact ⟨_, rfl, t, rfl, rfl, .inl hk⟩
    · obtain ⟨_, rfl, t, rfl, rfl, hk⟩ := covers_one h
      exact ⟨_, rfl, t, rfl, rfl, .inr hk⟩
  case signExpr =>
    rcases ha with rfl | rfl
    · obtain ⟨_, n, _, _, rfl, rfl, ⟨op, rfl, rfl, hop⟩, ⟨s, hs, hn⟩⟩ := covers_two h
      obtain ⟨o, ho, hrule⟩ : ∃ o, op.kind.prefix? = some o ∧ o.rule = .signExpr := by
        rcases hop with hop | hop <;> exact ⟨_, by rw [hop]; rfl, rfl⟩
      have hlt : s.rank < o.rule.rank := by
        rw [hrule]
        exact Nat.lt_succ_of_le hs
      exact ⟨_, rfl, o.rule, Nat.le_of_eq (congrArg Rule.rank hrule), .prefixOp ho hlt hn⟩
    · obtain ⟨n, rfl, hn⟩ := covers_one h
      exact ⟨n, rfl, lift (by decide) hn⟩
  case pattern =>
    rcases ha with rfl | rfl
    · obtain ⟨_, _, _, _, _, _, rfl, rfl, ⟨t, rfl, rfl, hk⟩, ⟨_, -, rfl, hword⟩,
        ⟨e, rfl, rfl, hk'⟩⟩ := covers_three h
      exact ⟨_, rfl, .escaped hk hword hk'⟩
    · obtain ⟨_, rfl, t, rfl, rfl, hk⟩ := covers_one h
      exact ⟨_, rfl, .pattern hk⟩
  case stringList =>
    rcases ha with rfl | rfl
    · obtain ⟨_, _, _, _, _, _, rfl, rfl, ⟨t, rfl, rfl, hk⟩, ⟨comma, -, rfl, hcomma⟩,
        ⟨items, rfl, hitems⟩⟩ := covers_three h
      have hstring : (Node.leaf 0 t).string? = some (Text.unquote t.text) :=
        Token.string?_of_kind hk
      exact ⟨_, Action.build_listJoin hstring 0, _, rfl, .more hk hcomma hitems⟩
    · obtain ⟨_, rfl, t, rfl, rfl, hk⟩ := covers_one h
      have hstring : (Node.leaf 0 t).string? = some (Text.unquote t.text) :=
        Token.string?_of_kind hk
      exact ⟨_, Action.build_listStart hstring, _, rfl, .one hk⟩
  case number =>
    rcases ha with rfl | rfl | rfl <;>
    · obtain ⟨_, rfl, t, rfl, rfl, hk⟩ := covers_one h
      exact ⟨_, rfl, t, rfl, rfl, by rw [hk]; rfl⟩

end Build

namespace Derivation

/-- A derivation has a tree for each of its symbols, over the tokens of the symbol. -/
theorem Derives.nodes_cover {symbols : List Symbol} {d : Derivation} (h : Derives symbols d) :
    ∃ nodes, d.nodes? = some nodes ∧ CoversAll symbols nodes d.yield := by
  induction h with
  | done => exact ⟨[], rfl, .nil⟩
  | @token kind t symbols rest hk _ ih =>
    obtain ⟨nodes, hnodes, hcovers⟩ := ih
    refine ⟨.leaf 0 t :: nodes, by rw [nodes?, hnodes]; rfl, ?_⟩
    exact @CoversAll.cons _ _ _ _ [t] _ ⟨t, rfl, rfl, hk⟩ hcovers
  | @rule r index a symbols body rest ha _ _ ihbody ihrest =>
    obtain ⟨children, hchildren, hcovers⟩ := ihbody
    obtain ⟨nodes, hnodes, hall⟩ := ihrest
    obtain ⟨n, hn, hcovered⟩ := Rule.build_covers (List.mem_of_getElem? ha) hcovers
    exact ⟨n :: nodes, nodes?_rule.2 ⟨a, children, n, nodes, ha, hchildren, hn, hnodes, rfl⟩,
      .cons hcovered hall⟩

/-- A derivation of a selector has a tree over the tokens of the selector. -/
theorem IsSentence.tree_covers {tokens : List Token} {d : Derivation} (h : d.IsSentence tokens) :
    ∃ tree r, d.tree? = some tree ∧ Node.Covers r tree tokens := by
  obtain ⟨nodes, hnodes, hcovers⟩ := h.derives.nodes_cover
  obtain ⟨n, rfl, r, -, hn⟩ := covers_one hcovers
  rw [h.yield_eq] at hn
  exact ⟨n.number.1, r, by rw [tree?, hnodes], hn.numberFrom 0⟩

end Derivation

end MessageSelector
