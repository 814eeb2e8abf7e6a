import MessageSelector.Node.Build

/-!
# Derivations

The table of the grammar read as an ordinary context-free grammar: the alternatives of a rule stand
side by side, without an order. A derivation of a sequence of symbols (`Derivation`, `Derives`) is a
forest, one tree for each symbol, written as a binary tree: `rule` holds the derivation of the
alternative that was chosen and the derivation of the symbols behind it. The actions of the
alternatives build the trees of a selector from a derivation (`nodes?`, `tree?`), which is a
sentence if it derives the root rule (`IsSentence`).
-/

namespace MessageSelector

/-- A result is some value if and only if it is no error. -/
theorem toOption_eq_some {ε α : Type} {x : Except ε α} {a : α} :
    x.toOption = some a ↔ x = .ok a := by
  cases x <;> simp [Except.toOption]

/-- A derivation of a sequence of symbols. -/
inductive Derivation where
  | done
  | token (t : Token) (rest : Derivation)
  /-- The alternative `index` of a rule, derived by `body`, for the first symbol. -/
  | rule (r : Rule) (index : Nat) (body rest : Derivation)
deriving DecidableEq

namespace Derivation

/-- The derivation derives the symbols from the grammar. -/
inductive Derives : List Symbol → Derivation → Prop
  | done : Derives [] .done
  | token {kind : Token.Kind} {t : Token} {symbols : List Symbol} {rest : Derivation} :
    t.kind = kind → Derives symbols rest → Derives (.token kind :: symbols) (.token t rest)
  | rule {r : Rule} {index : Nat} {a : Alternative} {symbols : List Symbol}
    {body rest : Derivation} :
    r.alternatives[index]? = some a → Derives a.symbols body → Derives symbols rest →
      Derives (.rule r :: symbols) (.rule r index body rest)

/-- The tokens of a derivation from left to right. -/
def yield : Derivation → List Token
  | done => []
  | token t rest => t :: rest.yield
  | rule _ _ body rest => body.yield ++ rest.yield

/-- The greatest number of rules that nest in a derivation. -/
def height : Derivation → Nat
  | done => 0
  | token _ rest => rest.height
  | rule _ _ body rest => max (body.height + 1) rest.height

/-- The trees that the actions of the alternatives build, one for each symbol. -/
def nodes? : Derivation → Option (List Node)
  | done => some []
  | token t rest => rest.nodes?.map (.leaf 0 t :: ·)
  | rule r index body rest => do
    let a ← r.alternatives[index]?
    let children ← body.nodes?
    let node ← (a.action.build children).toOption
    let nodes ← rest.nodes?
    return node :: nodes

/-- The derivation derives the tokens as a whole selector. -/
structure IsSentence (tokens : List Token) (d : Derivation) : Prop where
  derives : Derives [.rule Rule.root] d
  yield_eq : d.yield = tokens

/-- The tree of a derivation of one symbol, with identifiers in pre-order. -/
def tree? (d : Derivation) : Option Node :=
  match d.nodes? with
  | some [node] => some node.number.1
  | _ => none

/-- The trees of a rule and of the symbols behind it. -/
theorem nodes?_rule {r : Rule} {index : Nat} {body rest : Derivation} {nodes : List Node} :
    (rule r index body rest).nodes? = some nodes ↔
      ∃ a children n more, r.alternatives[index]? = some a ∧ body.nodes? = some children ∧
        a.action.build children = .ok n ∧ rest.nodes? = some more ∧ nodes = n :: more := by
  simp only [nodes?, Option.bind_eq_bind, Option.bind_eq_some_iff, toOption_eq_some]
  constructor
  · rintro ⟨a, ha, children, hchildren, n, hn, more, hmore, ⟨⟩⟩
    exact ⟨a, children, n, more, ha, hchildren, hn, hmore, rfl⟩
  · rintro ⟨a, children, n, more, ha, hchildren, hn, hmore, rfl⟩
    exact ⟨a, ha, children, hchildren, n, hn, more, hmore, rfl⟩

/-- The tree of a rule in front of the trees of the symbols behind it. -/
theorem nodes?_rule_append {r : Rule} {index : Nat} {body rest : Derivation} {n : Node}
    {nodes : List Node} (h : (rule r index body .done).nodes? = some [n])
    (hrest : rest.nodes? = some nodes) : (rule r index body rest).nodes? = some (n :: nodes) := by
  obtain ⟨a, children, n, _, ha, hchildren, hn, -, hcons⟩ := nodes?_rule.1 h
  cases hcons
  exact nodes?_rule.2 ⟨a, children, n, nodes, ha, hchildren, hn, hrest, rfl⟩

end Derivation

namespace Action

variable {item comma : Node} {s : String} {items : List String}

/-- A string makes a list. -/
theorem build_listStart (h : item.string? = some s) :
    listStart.build [item] = .ok (.list 0 [s]) := by
  simp only [build, string, h]
  rfl

/-- A string in front of a list makes a list. -/
theorem build_listJoin (h : item.string? = some s) (id : Nat) :
    listJoin.build [item, comma, .list id items] = .ok (.list 0 (s :: items)) := by
  simp only [build, string, h]
  rfl

end Action

namespace Rule

/-- No rule can be matched by no tokens at all. -/
theorem symbols_ne_nil {r : Rule} {a : Alternative} (h : a ∈ r.alternatives) :
    a.symbols ≠ [] := by
  revert a
  cases r <;> decide

end Rule

end MessageSelector
