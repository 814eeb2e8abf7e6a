import MessageSelector.Proofs.Numbering
import MessageSelector.Proofs.Sessions

/-!
# Acceptance

Parsing tokens from the first one on accepts exactly the sentences of the grammar, unless the rules
nest too deeply, and the tree is the one that the actions build from the only derivation there is
(`Parser.parse_iff_isSentence`). What a parse can end with is `Parser.Outcome`; a short sequence of
tokens never nests too deeply (`Parser.parse_ne_tooDeep`), so what is spelled out for one is parsed
(`Parser.parse_of_spells`).
-/

namespace MessageSelector

namespace Discipline

/-- Where few tokens are left, few rules can nest: along first symbols the rank falls, and behind
them a token less is left. -/
def short (tokens : List Token) : Discipline tokens where
  call room r p := p ≤ tokens.length ∧ r.rank + 11 * (tokens.length - p) < room
  keep _ _ := True
  admits := by
    rintro room r p index a ⟨hp, hroom⟩ htries
    -- Behind the first symbol at least one token less is left, which makes up for any rank.
    have hbehind (q : Nat) (hpq : p < q) (hq : q ≤ tokens.length) (xs : List Symbol) :
        Admits tokens (fun s q => q ≤ tokens.length ∧ s.rank + 11 * (tokens.length - q) < room)
          xs q := by
      refine Admits.of_forall hq fun s q' hqq' hq' => ⟨hq', ?_⟩
      have hrank : s.rank ≤ 10 := by cases s <;> decide
      omega
    obtain ⟨x, xs, hx, -, hrank⟩ :=
      Rule.symbols_eq_cons (List.mem_of_getElem? htries.alternative)
    rw [hx]
    cases x with
    | token kind =>
      intro t ht _
      have hlt := (List.getElem?_eq_some_iff.1 ht).1
      exact hbehind (p + 1) (by omega) (by omega) xs
    | rule s =>
      have hs := hrank s rfl
      refine ⟨⟨hp, by omega⟩, fun stop d hd => ?_⟩
      obtain ⟨t, rest, hyield, -⟩ := hd.sound.1.first
      have hlt : p < stop := by
        rw [hd.sound.2.2, hyield, List.length_cons]
        omega
      exact hbehind stop hlt (hd.stop_le hp) xs
  keeps _ _ := trivial

end Discipline

namespace Parser

/-- What parsing tokens can end with. -/
inductive Outcome {tokens : List Token} (D : Discipline tokens) : Except SyntaxError Node → Prop
  /-- All tokens are one selector. -/
  | ok {d : Derivation} {tree : Node} :
    d.IsSentence tokens → d.tree? = some tree → D.keep Rule.root 0 → Outcome D (.ok tree)
  /-- No tokens from the first one on are a selector. -/
  | noMatch {position offset : Nat} {found : String} :
    Recognizes tokens [.rule Rule.root] 0 none →
      Outcome D (.error (.parse (.noMatch position offset found)))
  /-- Tokens are left over behind a selector. -/
  | trailing {position offset : Nat} {found : String} {d : Derivation} :
    Recognizes tokens [.rule Rule.root] 0 (some (position, d)) → position < tokens.length →
      Outcome D (.error (.parse (.trailingTokens position offset found)))
  /-- Some rule was called with no room left. -/
  | tooDeep {r : Rule} {position offset : Nat} :
    D.call 0 r position → Outcome D (.error (.parse (.tooDeep position offset)))

/-- Parsing takes the answer of the root rule at the first token. -/
theorem parse_outcome {tokens : List Token} (D : Discipline tokens) (hne : tokens ≠ [])
    (hroot : D.call (maxRuleDepth + 1) Rule.root 0) :
    Outcome D (Parser.ofList tokens).parse := by
  have hkept : Kept D (Parser.ofList tokens) := .start D 0
  have hparses := hkept.parse hne hroot
  generalize (Parser.ofList tokens).parse = res at hparses ⊢
  cases hparses with
  | noMatch hnone => exact .noMatch hnone.2
  | tooDeep hzero => exact .tooDeep hzero
  | trailing hfound hlt =>
    obtain ⟨-, body, hbody⟩ := hfound
    exact .trailing hbody hlt
  | whole hfound hend hentry hnext =>
    -- No token is left, so the match of the root rule at the first token is the whole selector.
    obtain ⟨n, ⟨body, hbody, hnode⟩, hremembered⟩ := hnext.remembered_eq hentry
    rw [hend] at hbody
    rw [hremembered]
    exact .ok (Recognizes.isSentence hbody) (by rw [Derivation.tree?, hnode]) hfound.1

/-- Few tokens do not nest too deeply. -/
theorem parse_ne_tooDeep {tokens : List Token} (hfew : tokens.length ≤ 45) (position offset : Nat) :
    (Parser.ofList tokens).parse ≠ .error (.parse (.tooDeep position offset)) := by
  intro h
  by_cases hne : tokens = []
  · subst hne
    cases h
  · have hroot : (Discipline.short tokens).call (maxRuleDepth + 1) Rule.root 0 := by
      simp only [Discipline.short, Rule.root, Rule.rank, maxRuleDepth]
      omega
    have hout := parse_outcome (Discipline.short tokens) hne hroot
    rw [h] at hout
    cases hout with
    | tooDeep hcall => exact absurd hcall.2 (Nat.not_lt_zero _)

/-- Parsing tokens that have a derivation gives its tree, unless the rules nest too deeply. -/
theorem parse_or_tooDeep {tokens : List Token} {d : Derivation} (hd : d.IsSentence tokens)
    {tree : Node} (htree : d.tree? = some tree) :
    (Parser.ofList tokens).parse = .ok tree ∨
      ∃ position offset, (Parser.ofList tokens).parse =
        .error (.parse (.tooDeep position offset)) := by
  have hne : tokens ≠ [] := by
    rintro rfl
    obtain ⟨t, rest, hyield, -⟩ := hd.derives.first
    rw [hd.yield_eq] at hyield
    cases hyield
  have hout := parse_outcome (Discipline.free tokens) hne (Nat.zero_le _)
  have hmatch := Recognizes.of_isSentence hd
  generalize (Parser.ofList tokens).parse = res at hout
  cases hout with
  | ok hd' htree' =>
    rw [hd'.unique hd, htree] at htree'
    exact .inl (congrArg Except.ok (Option.some.inj htree').symm)
  | noMatch hno => cases hno.unique hmatch
  | trailing hmatch' hlt =>
    cases hmatch'.unique hmatch
    exact absurd hlt (Nat.lt_irrefl _)
  | tooDeep => exact .inr ⟨_, _, rfl⟩

/-- Few tokens that spell an expression are parsed as its tree. -/
theorem parse_of_spells {tokens : List Token} (hfew : tokens.length ≤ 45) {n : Node}
    (h : Spells [.rule .expr] tokens [n]) : (Parser.ofList tokens).parse = .ok n.number.1 := by
  obtain ⟨d, hd, htree⟩ := h.isSentence
  rcases parse_or_tooDeep hd htree with h | ⟨position, offset, h⟩
  · exact h
  · exact absurd h (parse_ne_tooDeep hfew position offset)

end Parser

/-! ## Sentences and selectors -/

theorem Derivation.preorder_tree {d : Derivation} {tree : Node} (h : d.tree? = some tree) :
    tree.preorder.map Node.id = List.range tree.size := by
  rw [Derivation.tree?] at h
  split at h
  · next node _ =>
    cases h
    exact node.preorder_number
  · cases h

/-- **Parsing decides the grammar.** Tokens have at most one derivation; unless the rules nest too
deeply, parsing them from the first one on gives a tree if and only if they have one. The tree is
the one that the actions of the derivation build: it stands over all the tokens in their order, with
chains grouped to the right, and has identifiers in pre-order. Without a derivation either no match
is found or tokens are left over. -/
theorem Parser.parse_iff_isSentence (tokens : List Token) (hne : tokens ≠ []) :
    (∀ d d' : Derivation, d.IsSentence tokens → d'.IsSentence tokens → d = d') ∧
    ((∀ position offset,
        (Parser.ofList tokens).parse ≠ .error (.parse (.tooDeep position offset))) →
      ((∃ tree, (Parser.ofList tokens).parse = .ok tree) ↔
        ∃ d : Derivation, d.IsSentence tokens) ∧
      (∀ tree, (Parser.ofList tokens).parse = .ok tree ↔
        ∃ d : Derivation, d.IsSentence tokens ∧ d.tree? = some tree) ∧
      (∀ tree, (Parser.ofList tokens).parse = .ok tree →
        (∃ r, Node.Covers r tree tokens) ∧ tree.preorder.map Node.id = List.range tree.size) ∧
      ((∃ position offset found,
          (Parser.ofList tokens).parse = .error (.parse (.noMatch position offset found)) ∨
          (Parser.ofList tokens).parse = .error (.parse (.trailingTokens position offset found))) ↔
        ¬ ∃ d : Derivation, d.IsSentence tokens)) := by
  refine ⟨fun d d' h h' => h.unique h', fun hdeep => ?_⟩
  have hout := Parser.parse_outcome (Discipline.free tokens) hne (Nat.zero_le _)
  generalize hres : (Parser.ofList tokens).parse = res at hout hdeep
  cases hout with
  | @ok d tree hd htree _ =>
    refine ⟨⟨fun _ => ⟨d, hd⟩, fun _ => ⟨tree, rfl⟩⟩, fun tree' => ⟨?_, ?_⟩, ?_, ?_, ?_⟩
    · rintro ⟨⟩
      exact ⟨d, hd, htree⟩
    · rintro ⟨d', hd', htree'⟩
      rw [hd'.unique hd, htree] at htree'
      rw [Option.some.inj htree']
    · rintro _ ⟨⟩
      obtain ⟨tree', r, htree', hcovers⟩ := hd.tree_covers
      rw [htree] at htree'
      cases htree'
      exact ⟨⟨r, hcovers⟩, Derivation.preorder_tree htree⟩
    · rintro ⟨_, _, _, h | h⟩ <;> cases h
    · exact fun h => absurd ⟨d, hd⟩ h
  | noMatch hno =>
    have hnone : ¬ ∃ d : Derivation, d.IsSentence tokens := by
      rintro ⟨d, hd⟩
      cases hno.unique (Recognizes.of_isSentence hd)
    refine ⟨⟨?_, fun h => absurd h hnone⟩, fun tree => ⟨?_, ?_⟩, ?_, ⟨fun _ => hnone, ?_⟩⟩
    · rintro ⟨_, ⟨⟩⟩
    · rintro ⟨⟩
    · exact fun ⟨d, hd, _⟩ => absurd ⟨d, hd⟩ hnone
    · rintro _ ⟨⟩
    · exact fun _ => ⟨_, _, _, .inl rfl⟩
  | trailing hmatch hlt =>
    have hnone : ¬ ∃ d : Derivation, d.IsSentence tokens := by
      rintro ⟨d, hd⟩
      cases hmatch.unique (Recognizes.of_isSentence hd)
      exact Nat.lt_irrefl _ hlt
    refine ⟨⟨?_, fun h => absurd h hnone⟩, fun tree => ⟨?_, ?_⟩, ?_, ⟨fun _ => hnone, ?_⟩⟩
    · rintro ⟨_, ⟨⟩⟩
    · rintro ⟨⟩
    · exact fun ⟨d, hd, _⟩ => absurd ⟨d, hd⟩ hnone
    · rintro _ ⟨⟩
    · exact fun _ => ⟨_, _, _, .inr rfl⟩
  | tooDeep => exact absurd rfl (hdeep _ _)

/-- A chain of operators is grouped to the right, and brackets group its last operand. -/
theorem Parser.parse_iff_isSentence_chain :
    let a : Token := ⟨.ident, "a", 0⟩
    let b : Token := ⟨.ident, "b", 6⟩
    let c : Token := ⟨.ident, "c", 13⟩
    let d : Token := ⟨.ident, "d", 18⟩
    let first : Token := ⟨.and, "AND", 2⟩
    let second : Token := ⟨.and, "AND", 8⟩
    let third : Token := ⟨.or, "OR", 15⟩
    let start : Token := ⟨.openParen, "(", 12⟩
    let stop : Token := ⟨.closeParen, ")", 19⟩
    let tokens : List Token := [a, first, b, second, start, c, third, d, stop]
    let tree : Node := .binary 0 first (.leaf 1 a)
      (.binary 2 second (.leaf 3 b) (.binary 4 third (.leaf 5 c) (.leaf 6 d)))
    tokens ≠ [] ∧ ∃ derivation : Derivation, derivation.IsSentence tokens ∧
      derivation.tree? = some tree ∧ (Parser.ofList tokens).parse = .ok tree := by
  intro a b c d first second third start stop tokens tree
  have hident (t : Token) (ht : t.kind.isOperand) :
      SpellsIn _ [.rule .notExpr] [t] [.leaf 0 t] :=
    (SpellsIn.literal ht).climb (by decide) .notExpr (by decide)
  have hand : ⟨.binary, [.rule .notExpr, .token .and, .rule .andExpr]⟩ ∈
      Rule.andExpr.alternatives := List.mem_cons_self
  have hthird : third.kind.binary? = some .or := rfl
  have hgroup : Spells [.rule .simple] [start, c, third, d, stop] _ :=
    ((Spells.literal rfl).operator hthird rfl (.literal rfl)).interior rfl rfl
  obtain ⟨calls, hgroup⟩ := hgroup.spellsIn
  have hlast := hgroup.climb (by decide) .andExpr (by decide)
  have hop (t : Token) (ht : t.kind = .and) : SpellsIn 0 [.token .and] [t] [.leaf 0 t] := .token ht
  have hsecond := SpellsIn.link hand (hident b rfl) (hop second rfl) hlast
  have hfirst := SpellsIn.link hand (hident a rfl) (hop first rfl) hsecond
  have hspells : Spells [.rule .expr] tokens _ :=
    (hfirst.climb (by decide) .expr (by decide)).spells
  obtain ⟨derivation, hsentence, htree⟩ := hspells.isSentence
  have hdeep := @Parser.parse_ne_tooDeep tokens (by decide)
  have hiff := (Parser.parse_iff_isSentence tokens (List.cons_ne_nil _ _)).2 hdeep
  exact ⟨List.cons_ne_nil _ _, derivation, hsentence, htree,
    (hiff.2.1 _).2 ⟨derivation, hsentence, htree⟩⟩

end MessageSelector
