import MessageSelector.Proofs.Canonical
import MessageSelector.Proofs.Likeness
import MessageSelector.Proofs.Spelling

/-!
# Deriving canonical text

Tokens that spell the canonical text of a tree are derived from the grammar as one simple
expression, and the actions build a tree that is alike (`Formed.spellsIn`): the brackets around
every operator bring its operands down to simple expressions. How deep the calls nest that find the
derivation is read off the tree (`Node.nesting`).
-/

namespace MessageSelector

open Token.Kind (openParen closeParen)

/-! ## Words -/

namespace Text

theorem halveQuotes_doubleQuotes (cs : List Char) : halveQuotes (doubleQuotes cs) = cs := by
  induction cs with
  | nil => rfl
  | cons c cs ih =>
    rw [doubleQuotes]
    split
    · next hc => rw [halveQuotes, ih, hc]
    · next hc =>
      rw [halveQuotes.eq_2 _ _ fun _ hhead => absurd hhead hc, ih]

theorem unquote_quote (s : String) : unquote (quote s) = s := by
  have hbetween : betweenQuotes ('\'' :: (doubleQuotes s.toList ++ ['\''])) =
      doubleQuotes s.toList := by
    rw [betweenQuotes, if_pos (by simp), List.dropLast_concat]
  rw [unquote, quote, String.toList_ofList, hbetween, halveQuotes_doubleQuotes,
    String.ofList_toList]

end Text

theorem Token.kind_of_word {t : Token} {kind : Kind} (h : t.word = kind.word) : t.kind = kind :=
  congrArg Prod.fst h

/-- A token with the kind and the printed text of a literal is like the literal. -/
theorem Token.alike_of_word {t t' : Token} (h : t.Literal)
    (hword : t'.word = (t.kind, Node.printLeaf t)) : t'.Alike t := by
  obtain ⟨hkind, htext⟩ := Prod.mk.inj hword
  obtain ⟨hprint, hpayload⟩ :
      Node.printLeaf t' = Node.printLeaf t ∧ t'.payload? = t.payload? := by
    rcases Node.printLeaf_cases t with ⟨hk | hk, -⟩ | hprint
    · simp [Node.printLeaf, payload?, hkind, hk]
    · simp [Node.printLeaf, payload?, hkind, hk]
    · rw [hprint] at htext
      rw [Node.printLeaf, Node.printLeaf, payload?, payload?, hkind, htext]
      exact ⟨rfl, rfl⟩
  exact ⟨hkind, hprint, hpayload, hpayload ▸ h.payload_beq⟩

/-- A token with the text of a quoted string stands for the string. -/
theorem Token.string?_of_word {t : Token} {s : String}
    (hword : t.word = (.string, Text.quote s)) : t.kind = .string ∧ t.string? = some s := by
  obtain ⟨hkind, htext⟩ := Prod.mk.inj hword
  exact ⟨hkind, by rw [string?_of_kind hkind, htext, Text.unquote_quote]⟩

/-- One token with the word of a literal is like the literal. -/
theorem leaf_split {tokens : List Token} {t : Token} (hk : t.kind.isOperand) (ht : t.Scanned)
    (h : tokens.map Token.word = [(t.kind, Node.printLeaf t)]) :
    ∃ t', tokens = [t'] ∧ t'.Alike t := by
  obtain ⟨t', rest, rfl, hword, hnil⟩ := List.map_eq_cons_iff.1 h
  cases List.map_eq_nil_iff.1 hnil
  exact ⟨t', rfl, Token.alike_of_word (ht.valued.literal hk) hword⟩

theorem bracket_split {tokens : List Token} {words : List (Token.Kind × String)}
    (h : tokens.map Token.word = inBrackets words) :
    ∃ start inner stop, tokens = start :: (inner ++ [stop]) ∧ start.kind = openParen ∧
      inner.map Token.word = words ∧ stop.kind = closeParen := by
  obtain ⟨start, rest, rfl, hstart, hrest⟩ := List.map_eq_cons_iff.1 h
  obtain ⟨inner, last, rfl, hinner, hlast⟩ := List.map_eq_append_iff.1 hrest
  obtain ⟨stop, rest, rfl, hstop, hnil⟩ := List.map_eq_cons_iff.1 hlast
  cases List.map_eq_nil_iff.1 hnil
  exact ⟨start, inner, stop, rfl, Token.kind_of_word hstart, hinner, Token.kind_of_word hstop⟩

theorem operator_split {tokens : List Token} {kind : Token.Kind}
    {left right : List (Token.Kind × String)}
    (h : tokens.map Token.word = left ++ kind.word :: right) :
    ∃ before op after, tokens = before ++ op :: after ∧ before.map Token.word = left ∧
      op.kind = kind ∧ after.map Token.word = right := by
  obtain ⟨before, rest, rfl, hbefore, hrest⟩ := List.map_eq_append_iff.1 h
  obtain ⟨op, after, rfl, hop, hafter⟩ := List.map_eq_cons_iff.1 hrest
  exact ⟨before, op, after, rfl, hbefore, Token.kind_of_word hop, hafter⟩

/-! ## Trees from their words -/

/-- The calls that nest below that of the simple expression which the canonical text of a tree is.
A bracket takes ten, whatever stands in it. -/
def Node.nesting : Node → Nat
  | leaf _ token => token.kind.tries
  | binary _ op left right =>
    max left.nesting (right.nesting + (op.kind.binary?.map BinaryOperator.links).getD 0) + 10
  | ternary _ _ first second third =>
    max first.nesting (max second.nesting third.nesting) + 10
  | prefixOp _ _ operand | postfixOp _ _ operand => operand.nesting + 10
  | pattern _ _ | escaped _ _ _ => 1
  | list _ items => items.length

namespace SpellsIn

variable {tokens : List Token} {n : Node}

/-- The words of a list are derived as a list of the strings. -/
theorem items {items : List String} (hne : items ≠ [])
    (h : tokens.map Token.word = listWords items) :
    SpellsIn items.length [.rule .stringList] tokens [.list 0 items] := by
  fun_induction listWords items generalizing tokens with
  | case1 => exact absurd rfl hne
  | case2 s =>
    obtain ⟨t, rest, rfl, hword, hnil⟩ := List.map_eq_cons_iff.1 h
    cases List.map_eq_nil_iff.1 hnil
    obtain ⟨hkind, hstring⟩ := Token.string?_of_word hword
    exact @rule _ _ _ _ .stringList 1 ⟨.listStart, _⟩ rfl (token hkind)
      (Action.build_listStart hstring)
  | case3 s items hitems ih =>
    obtain ⟨t, rest, rfl, hword, hrest⟩ := List.map_eq_cons_iff.1 h
    obtain ⟨comma, rest, rfl, hcomma, hrest⟩ := List.map_eq_cons_iff.1 hrest
    obtain ⟨hkind, hstring⟩ := Token.string?_of_word hword
    have hmore := ih (fun hnil => hitems hnil) hrest
    have hsymbols := (token hkind).cons ((token (Token.kind_of_word hcomma)).cons hmore)
    rw [Nat.zero_max, Nat.zero_max] at hsymbols
    exact @rule_of_pos _ _ _ _ .stringList ⟨.listJoin, _⟩ (by decide) hsymbols hmore.pos
      (@Action.build_listJoin (.leaf 0 t) _ _ _ hstring 0)

end SpellsIn

namespace Node

theorem PatternFormed.spellsIn {n : Node} (h : n.PatternFormed Token.Scanned) {tokens : List Token}
    (hwords : tokens.map Token.word = n.words) :
    ∃ m, SpellsIn n.nesting [.rule .pattern] tokens [m] ∧ m.Alike n := by
  cases h with
  | @pattern _ _ text hk ht =>
    obtain ⟨t, rfl, halike⟩ := leaf_split (by rw [hk]; rfl) ht hwords
    exact ⟨_, @SpellsIn.rule_of_isBare _ _ _ _ .pattern ⟨.pattern, _⟩ (by decide)
      (SpellsIn.token (halike.kind_eq.trans hk)) rfl rfl, .pattern trivial (.leaf trivial halike)⟩
  | escaped hk ht hk' ht' =>
    obtain ⟨before, op, after, rfl, hbefore, hop, hafter⟩ := operator_split hwords
    obtain ⟨t, rfl, halike⟩ := leaf_split (by rw [hk]; rfl) ht hbefore
    obtain ⟨e, rfl, halike'⟩ := leaf_split (by rw [hk']; rfl) ht' hafter
    have hsymbols := (SpellsIn.token (halike.kind_eq.trans hk)).cons
      ((SpellsIn.token hop).cons (SpellsIn.token (halike'.kind_eq.trans hk')))
    exact ⟨_, @SpellsIn.rule_of_isBare _ _ _ _ .pattern ⟨.pattern, _⟩ (by decide) hsymbols rfl rfl,
      .escaped trivial (.leaf trivial halike) (.leaf trivial halike')⟩

/-- The words of a formed tree are derived as a simple expression that is alike. -/
theorem Formed.spellsIn {n : Node} (h : n.Formed Token.Scanned) {tokens : List Token}
    (hwords : tokens.map Token.word = n.words) :
    ∃ m, SpellsIn (n.nesting + 1) [.rule .simple] tokens [m] ∧ m.Alike n := by
  -- Splitting the words splits the tokens, and the parts are derived by induction.
  induction h generalizing tokens with
  | @leaf id t hk ht =>
    obtain ⟨t', rfl, halike⟩ := leaf_split hk ht hwords
    have hleaf := SpellsIn.literal (t := t') (halike.kind_eq ▸ hk)
    rw [halike.kind_eq] at hleaf
    exact ⟨_, hleaf, .leaf trivial halike⟩
  | @binary id op o left right ho htakes _ _ ihl ihr =>
    obtain ⟨start, inner, stop, rfl, hstart, hinner, hstop⟩ := bracket_split hwords
    obtain ⟨before, op', after, rfl, hbefore, hop, hafter⟩ := operator_split hinner
    obtain ⟨l, hl, hleft⟩ := ihl hbefore
    obtain ⟨r, hr, hright⟩ := ihr hafter
    have hcalls : max (left.nesting + 1) (right.nesting + 1 + o.links) + 9 =
        (Node.binary id op left right).nesting := by
      simp only [nesting, ho, Option.map_some, Option.getD_some]
      omega
    rw [← hcalls]
    exact ⟨_, (SpellsIn.operator (hop ▸ ho) htakes hl hr).interior hstart hstop,
      .binary trivial hop hleft hright⟩
  | @like id i op x negated p ho hk hx hp =>
    obtain ⟨start, inner, stop, rfl, hstart, hinner, hstop⟩ := bracket_split hwords
    obtain ⟨before, op', after, rfl, hbefore, hop, hafter⟩ := operator_split hinner
    obtain ⟨x', rfl, halike⟩ := leaf_split (by rw [hk]; rfl) hx hbefore
    obtain ⟨m, hpattern, halike'⟩ := hp.spellsIn hafter
    have hlike := SpellsIn.like (halike.kind_eq.trans hk) (hop ▸ ho) hpattern
    have hcalls : p.nesting + 1 + 9 = (Node.binary id op (.leaf i x) p).nesting := by
      have hpos := hpattern.pos
      simp only [nesting, ho, hk, Option.map_some, Option.getD_some, Token.Kind.tries,
        BinaryOperator.links]
      omega
    rw [← hcalls]
    exact ⟨_, hlike.expr.interior hstart hstop,
      .binary trivial hop (.leaf trivial halike) halike'⟩
  | @isIn id i j op x negated strings ho hk hx hne =>
    obtain ⟨start, inner, stop, rfl, hstart, hinner, hstop⟩ := bracket_split hwords
    obtain ⟨before, op', after, rfl, hbefore, hop, hafter⟩ := operator_split hinner
    obtain ⟨start', items, stop', rfl, hstart', hitems, hstop'⟩ := bracket_split hafter
    obtain ⟨x', rfl, halike⟩ := leaf_split (by rw [hk]; rfl) hx hbefore
    have hlist := SpellsIn.items hne hitems
    have hin := SpellsIn.isIn (halike.kind_eq.trans hk) (hop ▸ ho) hstart' hstop' hlist
    have hcalls : strings.length + 1 + 9 =
        (Node.binary id op (.leaf i x) (.list j strings)).nesting := by
      have hpos := hlist.pos
      simp only [nesting, ho, hk, Option.map_some, Option.getD_some, Token.Kind.tries,
        BinaryOperator.links]
      omega
    rw [← hcalls]
    exact ⟨_, hin.expr.interior hstart hstop,
      .binary trivial hop (.leaf trivial halike) (.list trivial _)⟩
  | @ternary id op negated first second third ho _ _ _ ih₁ ih₂ ih₃ =>
    obtain ⟨start, inner, stop, rfl, hstart, hinner, hstop⟩ := bracket_split hwords
    obtain ⟨before, op', rest, rfl, hbefore, hop, hrest⟩ := operator_split hinner
    obtain ⟨middle, conj, after, rfl, hmiddle, hconj, hafter⟩ := operator_split hrest
    obtain ⟨m₁, h₁, halike₁⟩ := ih₁ hbefore
    obtain ⟨m₂, h₂, halike₂⟩ := ih₂ hmiddle
    obtain ⟨m₃, h₃, halike₃⟩ := ih₃ hafter
    have hcalls : max (first.nesting + 1) (max (second.nesting + 1) (third.nesting + 1)) + 9 =
        (Node.ternary id op first second third).nesting := by
      simp only [nesting]
      omega
    rw [← hcalls]
    exact ⟨_, (SpellsIn.ternary (hop ▸ ho) hconj h₃ h₁ h₂).interior hstart hstop,
      .ternary trivial hop halike₁ halike₂ halike₃⟩
  | prefixOp ho _ ih =>
    obtain ⟨start, inner, stop, rfl, hstart, hinner, hstop⟩ := bracket_split hwords
    obtain ⟨op, rest, rfl, hop, hrest⟩ := List.map_eq_cons_iff.1 hinner
    obtain ⟨m, hm, halike⟩ := ih hrest
    have hop := Token.kind_of_word hop
    exact ⟨_, (SpellsIn.prefixOp (hop ▸ ho) hm).interior hstart hstop,
      .prefixOp trivial hop halike⟩
  | @postfixOp id i op x negated ho hk hx =>
    obtain ⟨start, inner, stop, rfl, hstart, hinner, hstop⟩ := bracket_split hwords
    obtain ⟨before, op', after, rfl, hbefore, hop, hafter⟩ := operator_split hinner
    cases List.map_eq_nil_iff.1 hafter
    obtain ⟨x', rfl, halike⟩ := leaf_split (by rw [hk]; rfl) hx hbefore
    have htest := SpellsIn.postfixOp (halike.kind_eq.trans hk) (hop ▸ ho)
    have hcalls : 2 + 9 = (Node.postfixOp id op (.leaf i x)).nesting := by
      simp only [nesting, hk, Token.Kind.tries]
    rw [← hcalls]
    exact ⟨_, htest.expr.interior hstart hstop, .postfixOp trivial hop (.leaf trivial halike)⟩

end Node

end MessageSelector
