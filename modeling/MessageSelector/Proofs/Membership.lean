import MessageSelector.Proofs.Limit
import MessageSelector.Proofs.Reparsing

/-!
# Lists of strings

A membership test (`membershipText`) is parsed into the strings of its list, whatever they contain
(`parse_membership`): each is written between quotes, which end it and nothing else does, and the
list is put together again from its last string to its first. Every string but the first one takes
one more rule, so the length of a list is limited as the nesting of brackets is.
-/

namespace MessageSelector

open Token (Follows)

/-- The operator of a membership test. -/
def membershipKind (negated : Bool) : Token.Kind :=
  if negated then .notIn else .inList

/-- The text of a membership test, with the strings of its list between quotes and commas between
them. Behind each comma stands the same gap. -/
def membershipText (name : String) (negated : Bool) (gap : String) (items : List String) : String :=
  name ++ " " ++ (membershipKind negated).spelling ++ " (" ++
    String.intercalate ("," ++ gap) (items.map Text.quote) ++ ")"

section Membership

variable {name gap : String} {negated : Bool} {items : List String}

theorem binary?_membershipKind (negated : Bool) :
    (membershipKind negated).binary? = some (.isIn negated) := by
  cases negated <;> rfl

/-- The text is scanned as the identifier, the operator and the list in its brackets. -/
theorem scans_membership (hname : tokenize name = .ok [⟨.ident, name, 0⟩])
    (hgap : ∀ c ∈ gap.toList, Text.isBlank c) :
    Scans (membershipText name negated gap items).toList
      ([(.ident, name)] ++ (membershipKind negated).word :: inBrackets (listWords items)) := by
  have hscanned := tokenize_scanned hname _ List.mem_cons_self
  have hscannable : (Node.leaf 0 ⟨.ident, name, 0⟩).Scannable := .leaf rfl hscanned
  have hinfix := Token.Kind.isInfix_of_binary (binary?_membershipKind negated)
  have hlist := (@Node.Scannable.scans_items gap hgap items _ _
    (Scans.closeBracket .done)).openBracket
  have hscans := hscannable.scans (.operator _ hinfix)
    (Scans.operator hinfix (Token.opens_bracket _) hlist)
  simpa [membershipText, Node.print, Node.printLeaf, Node.words, inBrackets] using hscans

/-- The tokens of a membership test have a derivation with its tree, and each string of the list
takes one call. -/
theorem membership_derivedIn (hname : tokenize name = .ok [⟨.ident, name, 0⟩])
    (hgap : ∀ c ∈ gap.toList, Text.isBlank c) (hne : items ≠ []) :
    ∃ (tokens : List Token) (d : Derivation) (op x : Token),
      tokenize (membershipText name negated gap items) = .ok tokens ∧ d.IsSentence tokens ∧
        d.tree? = some (.binary 0 op (.leaf 1 x) (.list 2 items)) ∧
          op.kind = membershipKind negated ∧ x.kind = .ident ∧ x.text = name ∧
            d.calls = items.length + 10 := by
  obtain ⟨-, tokens, htokens, hwords⟩ := (scans_membership hname hgap).tokenize
  obtain ⟨before, op, after, rfl, hbefore, hop, hafter⟩ := operator_split hwords
  obtain ⟨start, inner, stop, rfl, hstart, hinner, hstop⟩ := bracket_split hafter
  obtain ⟨x, rest, rfl, hx, hnil⟩ := List.map_eq_cons_iff.1 hbefore
  cases List.map_eq_nil_iff.1 hnil
  obtain ⟨hkind, htext⟩ := Prod.mk.inj hx
  have hin := SpellsIn.isIn hkind (hop ▸ binary?_membershipKind negated) hstart hstop
    (SpellsIn.items hne hinner)
  obtain ⟨d, hd, htree, hcalls⟩ := hin.expr.isSentence
  exact ⟨_, d, op, x, htokens, hd, htree, hop, hkind, htext, hcalls⟩

end Membership

/-- **Lists are parsed string by string.** For every identifier and every list of strings that is
not empty, a membership test or its negation, with the strings between quotes and separated by
commas, is parsed if the list is within the limit of nesting. Its tree is the operator over the
identifier and the list, with the same strings in the same order. A longer list is rejected as
nested too deeply. -/
theorem parse_membership (name gap : String) (negated : Bool) (items : List String)
    (hname : tokenize name = .ok [⟨.ident, name, 0⟩]) (hgap : ∀ c ∈ gap.toList, Text.isBlank c)
    (hne : items ≠ []) :
    (items.length + 9 ≤ maxRuleDepth → ∃ op x : Token,
      parse (membershipText name negated gap items) =
          .ok (.binary 0 op (.leaf 1 x) (.list 2 items)) ∧
        op.kind = membershipKind negated ∧ x.kind = .ident ∧ x.text = name) ∧
    (maxRuleDepth < items.length + 9 → ∃ position offset,
      parse (membershipText name negated gap items) =
        .error (.parse (.tooDeep position offset))) := by
  obtain ⟨tokens, d, op, x, htokens, hd, htree, hop, hkind, htext, hcalls⟩ :=
    @membership_derivedIn name gap negated items hname hgap hne
  have hparse : parse (membershipText name negated gap items) = (Parser.ofList tokens).parse := by
    rw [parse, htokens]
  rw [hparse]
  refine ⟨fun hle => ⟨op, x, ?_, hop, hkind, htext⟩, fun hgt => ?_⟩
  · exact (Parser.parse_eq_ok_iff hd htree).2 (by omega)
  · exact (Parser.parse_tooDeep_iff hd htree).2 (by omega)

/-- A quote and a comma in a string end neither the string nor the list. -/
theorem parse_membership_quotes : ∃ op x : Token,
    parse "x NOT IN ('it''s', ',', '')" =
        .ok (.binary 0 op (.leaf 1 x) (.list 2 ["it's", ",", ""])) ∧
      op.kind = .notIn ∧ x.kind = .ident ∧ x.text = "x" := by
  have hname : tokenize "x" = .ok [⟨.ident, "x", 0⟩] := by decide +kernel
  have htext : membershipText "x" true " " ["it's", ",", ""] = "x NOT IN ('it''s', ',', '')" := by
    decide +kernel
  rw [← htext]
  exact (parse_membership "x" " " true _ hname Text.isBlank_of_mem_space
    (List.cons_ne_nil _ _)).1 (by decide)

/-- A list of 504 strings is not parsed. -/
theorem parse_membership_long : ∃ position offset,
    parse (membershipText "x" false " " (List.replicate 504 "a")) =
      .error (.parse (.tooDeep position offset)) := by
  have hname : tokenize "x" = .ok [⟨.ident, "x", 0⟩] := by decide +kernel
  have hlength : (List.replicate 504 "a").length = 504 := List.length_replicate
  obtain ⟨tokens, d, op, x, htokens, hd, htree, -, -, -, hcalls⟩ :=
    @membership_derivedIn "x" " " false (List.replicate 504 "a") hname
      Text.isBlank_of_mem_space (List.ne_nil_of_length_pos (by omega))
  rw [parse, htokens]
  exact (Parser.parse_tooDeep_iff hd htree).2 (by rw [hcalls, hlength, maxRuleDepth]; omega)

end MessageSelector
