import MessageSelector.Proofs.Accepted
import MessageSelector.Proofs.Rederivation
import MessageSelector.Proofs.Scanning

/-!
# Parsing canonical text

The canonical text of every tree that a text parses to is scanned whole and derived from the grammar
(`Node.Formed.print_derivedIn`), and its tree is alike. The brackets nest the rules more deeply than
the text may have done, so the limit on nesting is the one thing in the way of parsing it again
(`parse_print`).
-/

namespace MessageSelector

/-- A scan finds its tokens, and stops in front of a number without a value. -/
theorem Scan.scanned_of_mem {offset : Nat} {cs : List Char} {t : Token}
    (h : t ∈ (textFrom offset cs).tokens) : t.Scanned :=
  ⟨(found_of_mem h).found, valued_of_mem h⟩

theorem tokenize_scanned {text : String} {tokens : List Token} (h : tokenize text = .ok tokens) :
    ∀ t ∈ tokens, t.Scanned := by
  rw [tokenize, Scan.result] at h
  split at h
  · cases h
    exact fun t ht => Scan.scanned_of_mem ht
  · cases h

/-- The tree of a text is formed of tokens that the scan of the text found. -/
theorem parse_formed {text : String} {tree : Node} (h : parse text = .ok tree) :
    tree.Formed Token.Scanned := by
  have hreading := parse_reading text
  rw [h] at hreading
  cases hreading with
  | ok htokens hd htree _ =>
    obtain ⟨tree', htree', hformed⟩ := hd.tree_formed (tokenize_scanned htokens)
    rw [htree] at htree'
    cases htree'
    exact hformed

/-- The tokens of the canonical text of a formed tree have a derivation, whose tree is alike and
whose calls nest as the brackets do. -/
theorem Node.Formed.print_derivedIn {tree : Node} (h : tree.Formed Token.Scanned) :
    (Scan.text tree.print).residue = "" ∧
      ∃ (tokens : List Token) (d : Derivation) (tree' : Node),
        tokenize tree.print = .ok tokens ∧ d.IsSentence tokens ∧ d.tree? = some tree' ∧
          tree'.Alike tree ∧ d.calls = tree.nesting + 10 := by
  have hscans := h.scannable.scans .done .done
  rw [List.append_nil, List.append_nil] at hscans
  obtain ⟨hresidue, tokens, htokens, hwords⟩ := hscans.tokenize
  obtain ⟨m, hspells, halike⟩ := h.spellsIn hwords
  obtain ⟨d, hd, htree, hcalls⟩ := hspells.expr.isSentence
  exact ⟨hresidue, tokens, d, m.number.1, htokens, hd, htree, halike.numberFrom 0, hcalls⟩

theorem Node.Formed.print_derived {tree : Node} (h : tree.Formed Token.Scanned) :
    (Scan.text tree.print).residue = "" ∧
      ∃ (tokens : List Token) (d : Derivation) (tree' : Node),
        tokenize tree.print = .ok tokens ∧ d.IsSentence tokens ∧ d.tree? = some tree' ∧
          tree'.Alike tree := by
  obtain ⟨hresidue, tokens, d, tree', htokens, hd, htree, halike, -⟩ := h.print_derivedIn
  exact ⟨hresidue, tokens, d, tree', htokens, hd, htree, halike⟩

/-- **Canonical text is read back.** For every text that parses to a tree, the canonical text of
the tree is scanned with no residue and its tokens are derived from the grammar. Parsing it fails
only where the rules nest too deeply; otherwise it gives a tree of the same shape, in both
directions, with the same canonical text. -/
theorem parse_print (text : String) (tree : Node) (h : parse text = .ok tree) :
    (Scan.text tree.print).residue = "" ∧
    (∃ (tokens : List Token) (d : Derivation),
      tokenize tree.print = .ok tokens ∧ d.IsSentence tokens) ∧
    ((∃ position offset,
        parse tree.print = .error (.parse (.tooDeep position offset))) ∨
      ∃ tree', parse tree.print = .ok tree' ∧ tree.sameShape tree' ∧ tree'.sameShape tree ∧
        tree'.print = tree.print) := by
  obtain ⟨hresidue, tokens, d, tree', htokens, hd, htree', halike⟩ := (parse_formed h).print_derived
  refine ⟨hresidue, ⟨tokens, d, htokens, hd⟩, ?_⟩
  have hparse : parse tree.print = (Parser.ofList tokens).parse := by rw [parse, htokens]
  rw [hparse]
  rcases Parser.parse_or_tooDeep hd htree' with hok | hdeep
  · exact .inr ⟨tree', hok, halike.symm.sameShape, halike.sameShape, halike.print_eq⟩
  · exact .inl hdeep

/-- A negated null test in lower case. -/
theorem parse_print_not_null :
    ∃ tree tree', parse "not x is null" = .ok tree ∧ tree.print = "(NOT (x IS NULL))" ∧
      parse "(NOT (x IS NULL))" = .ok tree' ∧ tree.sameShape tree' ∧ tree'.sameShape tree ∧
      tree'.print = tree.print := by
  let negation : Token := ⟨.not, "not", 0⟩
  let x : Token := ⟨.ident, "x", 4⟩
  let test : Token := ⟨.isNull, "is null", 6⟩
  let tree : Node := .prefixOp 0 negation (.postfixOp 1 test (.leaf 2 x))
  have htest : Spells [.rule .simple] [x, test] [.postfixOp 0 test (.leaf 0 x)] :=
    .postfixOp rfl rfl
  have hspells : Spells [.rule .expr] [negation, x, test]
      [.prefixOp 0 negation (.postfixOp 0 test (.leaf 0 x))] := .prefixOp rfl htest
  have htokens : tokenize "not x is null" = .ok [negation, x, test] := by decide +kernel
  have hparse : parse "not x is null" = .ok tree := by
    rw [parse, htokens]
    exact Parser.parse_of_spells (by decide) hspells
  have hprint : tree.print = "(NOT (x IS NULL))" := by decide
  obtain ⟨-, ⟨tokens, _, htokens', -⟩, hdeep | ⟨tree', hparse', hshape⟩⟩ := parse_print _ _ hparse
  · obtain ⟨position, offset, hdeep⟩ := hdeep
    have hlength : (tokenize "(NOT (x IS NULL))").map List.length = .ok 7 := by decide +kernel
    rw [← hprint, htokens'] at hlength
    have hfew : tokens.length ≤ 45 := by
      have hseven : tokens.length = 7 := Except.ok.inj hlength
      omega
    rw [parse, htokens'] at hdeep
    exact absurd hdeep (Parser.parse_ne_tooDeep hfew position offset)
  · exact ⟨tree, tree', hparse, hprint, hprint ▸ hparse', hshape⟩

end MessageSelector
