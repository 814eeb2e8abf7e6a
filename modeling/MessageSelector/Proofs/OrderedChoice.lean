import MessageSelector.Proofs.Derivation

/-!
# Ordered choice

Plain recognition tries the alternatives of a rule in their order and takes the first whose symbols
all match. It keeps no memo and has no limit to its depth.

The grammar is read as a context-free grammar when derivations are counted, and with ordered choice
when tokens are recognized. The two agree because the table separates its alternatives: where a
later alternative leaves an earlier one, the next token decides between them. What the next token
can be is bounded by two sets of kinds for each rule, `first` for the tokens a match can start with
and `blocks` for the tokens that must not follow a match, since the rule could go on with them.
`Rule.separated` checks the table against these sets; all else holds of every table that passes.
-/

namespace MessageSelector

open MessageSelector.Derivation (Derives)

/-- Plain recognition of symbols from a position on: the position behind the last symbol and the
derivation of all of them, or no match. -/
inductive Recognizes (tokens : List Token) : List Symbol → Nat → Option (Nat × Derivation) → Prop
  | done (p : Nat) : Recognizes tokens [] p (some (p, .done))
  | token {kind : Token.Kind} {symbols : List Symbol} {p stop : Nat} {t : Token}
    {rest : Derivation} :
    tokens[p]? = some t → t.kind = kind → Recognizes tokens symbols (p + 1) (some (stop, rest)) →
      Recognizes tokens (.token kind :: symbols) p (some (stop, .token t rest))
  | tokenThen {kind : Token.Kind} {symbols : List Symbol} {p : Nat} {t : Token} :
    tokens[p]? = some t → t.kind = kind → Recognizes tokens symbols (p + 1) none →
      Recognizes tokens (.token kind :: symbols) p none
  | mismatch {kind : Token.Kind} {symbols : List Symbol} {p : Nat} :
    (∀ t, tokens[p]? = some t → t.kind ≠ kind) →
      Recognizes tokens (.token kind :: symbols) p none
  | rule {r : Rule} {symbols : List Symbol} {p middle stop index : Nat} {a : Alternative}
    {body rest : Derivation} :
    r.alternatives[index]? = some a →
      (∀ i, i < index → ∀ b : Alternative, r.alternatives[i]? = some b →
        Recognizes tokens b.symbols p none) →
      Recognizes tokens a.symbols p (some (middle, body)) →
      Recognizes tokens symbols middle (some (stop, rest)) →
      Recognizes tokens (.rule r :: symbols) p (some (stop, .rule r index body rest))
  | ruleThen {r : Rule} {symbols : List Symbol} {p middle index : Nat} {a : Alternative}
    {body : Derivation} :
    r.alternatives[index]? = some a →
      (∀ i, i < index → ∀ b : Alternative, r.alternatives[i]? = some b →
        Recognizes tokens b.symbols p none) →
      Recognizes tokens a.symbols p (some (middle, body)) →
      Recognizes tokens symbols middle none →
      Recognizes tokens (.rule r :: symbols) p none
  | failure {r : Rule} {symbols : List Symbol} {p : Nat} :
    (∀ (i : Nat) (b : Alternative), r.alternatives[i]? = some b →
      Recognizes tokens b.symbols p none) →
      Recognizes tokens (.rule r :: symbols) p none

namespace Recognizes

variable {tokens : List Token}

/-! ## One answer -/

/-- Two runs of a rule that find an alternative find the same one, given that what the first run
tried has one answer. -/
private theorem chosen_unique {r : Rule} {p index index' : Nat} {a a' : Alternative}
    {o o' : Nat × Derivation} (ha : r.alternatives[index]? = some a)
    (ha' : r.alternatives[index']? = some a')
    (hfail' : ∀ i, i < index' → ∀ b : Alternative, r.alternatives[i]? = some b →
      Recognizes tokens b.symbols p none)
    (hbody' : Recognizes tokens a'.symbols p (some o'))
    (ihfail : ∀ i, i < index → ∀ b : Alternative, r.alternatives[i]? = some b →
      ∀ {x : Option (Nat × Derivation)}, Recognizes tokens b.symbols p x → none = x)
    (ihbody : ∀ {x : Option (Nat × Derivation)}, Recognizes tokens a.symbols p x → some o = x) :
    index = index' ∧ o = o' := by
  rcases Nat.lt_trichotomy index index' with hlt | heq | hgt
  · cases ihbody (hfail' index hlt a ha)
  · subst heq
    rw [ha] at ha'
    cases ha'
    exact ⟨rfl, Option.some.inj (ihbody hbody')⟩
  · cases ihfail index' hgt a' ha' hbody'

/-- Plain recognition has one answer. -/
theorem unique {symbols : List Symbol} {p : Nat} {o o' : Option (Nat × Derivation)}
    (h : Recognizes tokens symbols p o) (h' : Recognizes tokens symbols p o') : o = o' := by
  induction h generalizing o' with
  | done p => cases h'; rfl
  | token ht hk _ ih =>
    cases h' with
    | token ht' _ hrest =>
      rw [ht] at ht'
      cases ht'
      cases ih hrest
      rfl
    | tokenThen _ _ hrest => cases ih hrest
    | mismatch hne => exact absurd hk (hne _ ht)
  | tokenThen ht hk _ ih =>
    cases h' with
    | token _ _ hrest => cases ih hrest
    | tokenThen => rfl
    | mismatch => rfl
  | mismatch hne =>
    cases h' with
    | token ht hk _ => exact absurd hk (hne _ ht)
    | tokenThen => rfl
    | mismatch => rfl
  | rule ha _ _ _ ihfail ihbody ihrest =>
    cases h' with
    | rule ha' hfail' hbody' hrest' =>
      obtain ⟨rfl, ho⟩ := chosen_unique ha ha' hfail' hbody' ihfail ihbody
      cases ho
      cases ihrest hrest'
      rfl
    | ruleThen ha' hfail' hbody' hrest' =>
      obtain ⟨rfl, ho⟩ := chosen_unique ha ha' hfail' hbody' ihfail ihbody
      cases ho
      cases ihrest hrest'
    | failure hall => cases ihbody (hall _ _ ha)
  | ruleThen ha _ _ _ ihfail ihbody ihrest =>
    cases h' with
    | rule ha' hfail' hbody' hrest' =>
      obtain ⟨rfl, ho⟩ := chosen_unique ha ha' hfail' hbody' ihfail ihbody
      cases ho
      cases ihrest hrest'
    | ruleThen => rfl
    | failure => rfl
  | failure _ ih =>
    cases h' with
    | rule ha _ hbody _ => cases ih _ _ ha hbody
    | ruleThen => rfl
    | failure => rfl

/-! ## Matches are derivations -/

theorem drop_eq_cons {α : Type} {l : List α} {p : Nat} {x : α} (h : l[p]? = some x) :
    l.drop p = x :: l.drop (p + 1) := by
  obtain ⟨hp, rfl⟩ := List.getElem?_eq_some_iff.1 h
  exact List.drop_eq_getElem_cons hp

theorem getElem?_of_drop {α : Type} {l : List α} {p : Nat} {x : α} {rest : List α}
    (h : l.drop p = x :: rest) : l[p]? = some x ∧ l.drop (p + 1) = rest := by
  constructor
  · rw [← List.head?_drop, h, List.head?_cons]
  · rw [← List.tail_drop, h, List.tail_cons]

/-- What is recognized is derived, and the derivation holds the tokens of the match. -/
theorem sound {symbols : List Symbol} {p stop : Nat} {d : Derivation}
    (h : Recognizes tokens symbols p (some (stop, d))) :
    Derives symbols d ∧ tokens.drop p = d.yield ++ tokens.drop stop ∧
      stop = p + d.yield.length := by
  generalize ho : some (stop, d) = o at h
  induction h generalizing stop d with
  | done p =>
    cases ho
    exact ⟨.done, rfl, rfl⟩
  | token ht hk _ ih =>
    cases ho
    obtain ⟨hd, hy, hs⟩ := ih rfl
    refine ⟨.token hk hd, ?_, ?_⟩
    · rw [drop_eq_cons ht, hy]
      rfl
    · simp only [hs, Derivation.yield, List.length_cons]
      omega
  | rule ha _ _ _ _ ihbody ihrest =>
    cases ho
    obtain ⟨hbody, hyBody, hsBody⟩ := ihbody rfl
    obtain ⟨hrest, hyRest, hsRest⟩ := ihrest rfl
    refine ⟨.rule ha hbody hrest, ?_, ?_⟩
    · rw [hyBody, hyRest, Derivation.yield, List.append_assoc]
    · simp only [hsRest, hsBody, Derivation.yield, List.length_append]
      omega
  | tokenThen => cases ho
  | mismatch => cases ho
  | ruleThen => cases ho
  | failure => cases ho

/-- A match ends inside the tokens or right behind them. -/
theorem stop_le {symbols : List Symbol} {p stop : Nat} {d : Derivation}
    (h : Recognizes tokens symbols p (some (stop, d))) (hp : p ≤ tokens.length) :
    stop ≤ tokens.length := by
  obtain ⟨-, hy, hstop⟩ := h.sound
  have hlen := congrArg List.length hy
  simp only [List.length_drop, List.length_append] at hlen
  omega

end Recognizes

/-! ## The sets of kinds -/

namespace Rule

/-- The kinds of token that an operand without a sign can start with. -/
def operandFirst : List Token.Kind :=
  [.openParen, .trueWord, .falseWord, .string, .hex, .float, .int, .ident]

/-- The kinds of token that a match of a rule can start with. -/
def first : Rule → List Token.Kind
  | expr | orExpr | andExpr | notExpr => .not :: .plus :: .minus :: operandFirst
  | cmpExpr | arith | plusExpr | multExpr | signExpr => .plus :: .minus :: operandFirst
  | simple => operandFirst
  | cmpOp => [.equal, .notEqual, .less, .lessOrEqual, .greater, .greaterOrEqual]
  | addOp => [.plus, .minus]
  | mulOp => [.times, .divide]
  | pattern | stringList => [.string]
  | number => [.hex, .float, .int]

/-- The kinds of token with which a match of a simple expression could go on. -/
def simpleBlocks : List Token.Kind :=
  [.isNull, .isNotNull, .notIn, .inList, .notLike, .like, .escape]

/-- The kinds of token with which a match of a sum could go on. -/
def sumBlocks : List Token.Kind :=
  .plus :: .minus :: .times :: .divide :: simpleBlocks

/-- The kinds of token with which a match of a comparison could go on. -/
def comparisonBlocks : List Token.Kind :=
  .between :: .notBetween :: (cmpOp.first ++ sumBlocks)

/-- The kinds of token with which a match of a rule could go on, and which therefore must not
follow it. -/
def blocks : Rule → List Token.Kind
  | expr | orExpr => .or :: .and :: comparisonBlocks
  | andExpr => .and :: comparisonBlocks
  | notExpr | cmpExpr => comparisonBlocks
  | arith | plusExpr => sumBlocks
  | multExpr => .times :: .divide :: simpleBlocks
  | signExpr | simple => simpleBlocks
  | pattern => [.escape]
  | stringList => [.comma]
  | cmpOp | addOp | mulOp | number => []

/-- The first symbol of an alternative has a smaller rank than the rule. -/
def rank : Rule → Nat
  | expr => 10
  | orExpr => 9
  | andExpr => 8
  | notExpr => 7
  | cmpExpr => 6
  | arith => 5
  | plusExpr => 4
  | multExpr => 3
  | signExpr => 2
  | simple => 1
  | cmpOp | addOp | mulOp | pattern | stringList | number => 0

end Rule

namespace Symbol

/-- The kinds of token that a match of a symbol can start with. -/
def first : Symbol → List Token.Kind
  | rule r => r.first
  | token kind => [kind]

/-- The kinds of token that must not follow a match of a symbol. -/
def blocks : Symbol → List Token.Kind
  | rule r => r.blocks
  | token _ => []

/-- Whether the first symbol starts as the rule does, and is a token or a rule of smaller rank. -/
def startsBelow (r : Rule) : List Symbol → Bool
  | [] => false
  | x :: _ =>
    x.first.all (r.first.contains ·) &&
      match x with
      | rule s => s.rank < r.rank
      | token _ => true

/-- Whether every symbol ends where the next one starts, and the last one before every token that is
not blocked. -/
def adjoins (blocked : List Token.Kind) : List Symbol → Bool
  | [] => true
  | [x] => x.blocks.all (blocked.contains ·)
  | x :: y :: rest => x.blocks.all (!y.first.contains ·) && adjoins blocked (y :: rest)

/-- Whether the next token tells two sequences of symbols apart at the first place where they
differ; behind the end of the second stands no token that is blocked. -/
def separates (blocked : List Token.Kind) : List Symbol → List Symbol → Bool
  | [], _ => false
  | x :: _, [] => x.first.all (blocked.contains ·)
  | x :: xs, y :: ys =>
    if x = y then separates blocked xs ys else x.first.all (!y.first.contains ·)

end Symbol

open MessageSelector.Symbol in
/-- The table passes the check: the next token always decides between two alternatives. -/
theorem Rule.separated (r : Rule) :
    (∀ a ∈ r.alternatives, adjoins r.blocks a.symbols ∧ startsBelow r a.symbols) ∧
      r.alternatives.Pairwise fun a b => separates r.blocks a.symbols b.symbols := by
  cases r <;> decide

/-- What holds of an alternative and each later one. -/
theorem Rule.pairwise_getElem? {r : Rule} {P : Alternative → Alternative → Prop}
    (h : r.alternatives.Pairwise P) {i index : Nat} (hi : i < index) {a b : Alternative}
    (hb : r.alternatives[i]? = some b) (ha : r.alternatives[index]? = some a) : P b a := by
  obtain ⟨hiLt, rfl⟩ := List.getElem?_eq_some_iff.1 hb
  obtain ⟨hLt, rfl⟩ := List.getElem?_eq_some_iff.1 ha
  exact List.pairwise_iff_getElem.1 h i index hiLt hLt hi

/-- An alternative is separated from each later one. -/
theorem Rule.separates_of_lt {r : Rule} {i index : Nat} (hi : i < index) {a b : Alternative}
    (hb : r.alternatives[i]? = some b) (ha : r.alternatives[index]? = some a) :
    Symbol.separates r.blocks b.symbols a.symbols :=
  pairwise_getElem? (separated r).2 hi hb ha

/-! ## The next token decides -/

/-- The symbols of an alternative start with one that starts as the rule does. -/
theorem Rule.symbols_eq_cons {r : Rule} {a : Alternative} (ha : a ∈ r.alternatives) :
    ∃ x xs, a.symbols = x :: xs ∧ (∀ k ∈ x.first, k ∈ r.first) ∧
      ∀ s, x = .rule s → s.rank < r.rank := by
  have h := ((Rule.separated r).1 a ha).2
  cases hs : a.symbols with
  | nil => exact absurd hs (Rule.symbols_ne_nil ha)
  | cons x xs =>
    rw [hs] at h
    simp only [Symbol.startsBelow, Bool.and_eq_true, List.all_eq_true, List.contains_iff_mem] at h
    refine ⟨x, xs, rfl, h.1, ?_⟩
    rintro s rfl
    exact of_decide_eq_true h.2

/-- A derivation starts with a token that its first symbol can start with. -/
theorem Derivation.Derives.first {x : Symbol} {xs : List Symbol} {d : Derivation}
    (h : Derives (x :: xs) d) : ∃ t rest, d.yield = t :: rest ∧ t.kind ∈ x.first := by
  generalize hs : x :: xs = symbols at h
  induction h generalizing x xs with
  | done => cases hs
  | @token kind t _ rest hk _ _ =>
    cases hs
    exact ⟨t, rest.yield, rfl, by simp [Symbol.first, hk]⟩
  | @rule r index a _ body rest ha _ _ ihbody _ =>
    cases hs
    obtain ⟨y, ys, hy, hfirst, -⟩ := Rule.symbols_eq_cons (List.mem_of_getElem? ha)
    obtain ⟨t, more, hyield, hk⟩ := ihbody hy.symm
    exact ⟨t, more ++ rest.yield, by rw [yield, hyield, List.cons_append], hfirst _ hk⟩

namespace Recognizes

variable {tokens : List Token}

/-- A match starts with a token that its first symbol can start with. -/
theorem first {x : Symbol} {xs : List Symbol} {p : Nat} {o : Nat × Derivation}
    (h : Recognizes tokens (x :: xs) p (some o)) :
    ∃ t, tokens[p]? = some t ∧ t.kind ∈ x.first := by
  obtain ⟨hd, hy, -⟩ := h.sound
  obtain ⟨t, rest, hyield, hk⟩ := hd.first
  rw [hyield, List.cons_append] at hy
  exact ⟨t, (getElem?_of_drop hy).1, hk⟩

/-- No symbol matches at a token it cannot start with. -/
theorem fails_of_first {x : Symbol} {xs : List Symbol} {p : Nat}
    (h : ∀ t, tokens[p]? = some t → t.kind ∉ x.first) : Recognizes tokens (x :: xs) p none := by
  cases x with
  | token kind => exact .mismatch fun t ht hk => h t ht (by simp [Symbol.first, hk])
  | rule r =>
    -- Along first symbols the rank falls, so there is no left recursion.
    induction hn : r.rank using Nat.strongRecOn generalizing r xs with
    | ind n ih =>
      refine .failure fun i b hb => ?_
      obtain ⟨y, ys, hy, hfirst, hrank⟩ := Rule.symbols_eq_cons (List.mem_of_getElem? hb)
      have hnot : ∀ t, tokens[p]? = some t → t.kind ∉ y.first :=
        fun t ht hk => h t ht (hfirst _ hk)
      rw [hy]
      cases y with
      | token kind => exact .mismatch fun t ht hk => hnot t ht (by simp [Symbol.first, hk])
      | rule s => exact ih s.rank (hn ▸ hrank s rfl) s hnot rfl

/-- Where the table separates two alternatives, a match of the later one is none of the earlier
one. -/
theorem fails_of_separates {blocked : List Token.Kind} {xs ys : List Symbol} {p stop : Nat}
    {d : Derivation} (h : Recognizes tokens ys p (some (stop, d)))
    (hsep : Symbol.separates blocked xs ys)
    (hnext : ∀ t, tokens[stop]? = some t → t.kind ∉ blocked) : Recognizes tokens xs p none := by
  induction xs generalizing ys p d with
  | nil => simp [Symbol.separates] at hsep
  | cons x xs ih =>
    cases ys with
    | nil =>
      cases h
      simp only [Symbol.separates, List.all_eq_true, List.contains_iff_mem] at hsep
      exact fails_of_first fun t ht hk => hnext t ht (hsep _ hk)
    | cons y ys =>
      rw [Symbol.separates] at hsep
      split at hsep
      · next heq =>
        subst heq
        cases h with
        | token ht hk hrest => exact .tokenThen ht hk (ih hrest hsep)
        | rule ha hfail hbody hrest => exact .ruleThen ha hfail hbody (ih hrest hsep)
      · obtain ⟨t, ht, hk⟩ := h.first
        refine fails_of_first fun t' ht' hk' => ?_
        rw [ht] at ht'
        cases ht'
        exact absurd hk (by simpa using List.all_eq_true.1 hsep _ hk')

/-! ## Derivations are matches -/

theorem adjoins_tail {blocked : List Token.Kind} {x : Symbol} {symbols : List Symbol}
    (h : Symbol.adjoins blocked (x :: symbols)) : Symbol.adjoins blocked symbols := by
  cases symbols with
  | nil => rfl
  | cons y ys => exact (Bool.and_eq_true_iff.1 h).2

/-- The token behind a symbol is the first of the next symbol, with which it could not go on. -/
theorem not_mem_blocks_of_cons {x y : Symbol} {symbols : List Symbol} {rest : Derivation}
    (hrest : Derives (y :: symbols) rest) {blocked : List Token.Kind}
    (hadj : Symbol.adjoins blocked (x :: y :: symbols)) (after : List Token) :
    ∀ t, (rest.yield ++ after).head? = some t → t.kind ∉ x.blocks := by
  intro t ht
  obtain ⟨t', more, hyield, hk⟩ := hrest.first
  rw [hyield] at ht
  cases ht
  have hnot := List.all_eq_true.1 (Bool.and_eq_true_iff.1 hadj).1
  exact fun hb => absurd hk (by simpa using hnot _ hb)

/-- The token behind a symbol is the first of the next symbol, or behind all symbols; with neither
could the symbol go on. -/
theorem not_mem_blocks {x : Symbol} {symbols : List Symbol} {rest : Derivation}
    (hrest : Derives symbols rest) {blocked : List Token.Kind}
    (hadj : Symbol.adjoins blocked (x :: symbols)) {after : List Token}
    (hnext : ∀ t, after.head? = some t → t.kind ∉ blocked) :
    ∀ t, (rest.yield ++ after).head? = some t → t.kind ∉ x.blocks := by
  cases symbols with
  | nil =>
    intro t ht
    cases hrest
    have hlast : ∀ k ∈ x.blocks, k ∈ blocked := by simpa [Symbol.adjoins] using hadj
    exact fun hk => hnext t ht (hlast _ hk)
  | cons y ys => exact not_mem_blocks_of_cons hrest hadj after

/-- What is derived is recognized, if no token follows with which the last symbol could go on. -/
theorem complete {symbols : List Symbol} {d : Derivation} (h : Derives symbols d)
    {blocked : List Token.Kind} (hadj : Symbol.adjoins blocked symbols) {p : Nat}
    {after : List Token} (hp : tokens.drop p = d.yield ++ after)
    (hnext : ∀ t, after.head? = some t → t.kind ∉ blocked) :
    Recognizes tokens symbols p (some (p + d.yield.length, d)) := by
  induction h generalizing blocked p after with
  | done => exact .done p
  | @token kind t symbols rest hk hrest ih =>
    obtain ⟨ht, hdrop⟩ := getElem?_of_drop hp
    have hmatch := ih (adjoins_tail hadj) hdrop hnext
    rw [show p + 1 + rest.yield.length = p + (Derivation.token t rest).yield.length by
      simp only [Derivation.yield, List.length_cons]; omega] at hmatch
    exact .token ht hk hmatch
  | @rule r index a symbols body rest ha hbody hrest ihbody ihrest =>
    rw [Derivation.yield, List.append_assoc] at hp
    have hmem : a ∈ r.alternatives := List.mem_of_getElem? ha
    have hbehind := not_mem_blocks (x := .rule r) hrest hadj hnext
    -- The body is recognized with the blocked tokens of the rule itself.
    have hmatch := ihbody ((Rule.separated r).1 a hmem).1 hp hbehind
    have hdrop : tokens.drop (p + body.yield.length) = rest.yield ++ after := by
      rw [← List.drop_drop, hp, List.drop_left]
    have hrestMatch := ihrest (adjoins_tail hadj) hdrop hnext
    have hfail : ∀ i, i < index → ∀ b : Alternative, r.alternatives[i]? = some b →
        Recognizes tokens b.symbols p none := by
      intro i hi b hb
      refine fails_of_separates hmatch (Rule.separates_of_lt hi hb ha) fun t ht => hbehind t ?_
      rw [← hdrop, List.head?_drop, ht]
    have hall := Recognizes.rule ha hfail hmatch hrestMatch
    rw [show p + body.yield.length + rest.yield.length =
      p + (Derivation.rule r index body rest).yield.length by
        simp only [Derivation.yield, List.length_append]; omega] at hall
    exact hall

/-- A derivation of all tokens is the match of the root rule at the first token. -/
theorem of_isSentence {d : Derivation} (h : d.IsSentence tokens) :
    Recognizes tokens [.rule Rule.root] 0 (some (tokens.length, d)) := by
  have hadj : Symbol.adjoins Rule.root.blocks [.rule Rule.root] := by decide
  have hall : tokens.drop 0 = d.yield ++ [] := by
    rw [h.yield_eq, List.append_nil, List.drop_zero]
  have hmatch := complete h.derives hadj hall (by simp)
  rwa [h.yield_eq, Nat.zero_add] at hmatch

/-- A match of the root rule that takes all tokens is a derivation of them. -/
theorem isSentence {d : Derivation}
    (h : Recognizes tokens [.rule Rule.root] 0 (some (tokens.length, d))) :
    d.IsSentence tokens := by
  obtain ⟨hd, hy, -⟩ := h.sound
  refine ⟨hd, ?_⟩
  rwa [List.drop_zero, List.drop_length, List.append_nil, eq_comm] at hy

end Recognizes

/-- The grammar is unambiguous: tokens have at most one derivation. -/
theorem Derivation.IsSentence.unique {tokens : List Token} {d d' : Derivation}
    (h : d.IsSentence tokens) (h' : d'.IsSentence tokens) : d = d' := by
  have heq := (Recognizes.of_isSentence h).unique (Recognizes.of_isSentence h')
  simpa using heq

end MessageSelector
