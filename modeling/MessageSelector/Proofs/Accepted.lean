import MessageSelector.Proofs.Limit
import MessageSelector.Proofs.TermDepth

/-!
# Accepted texts

What is known of the tree of every text that is parsed without an error (`Node.Accepted`,
`parse_accepted`): its leaves have values, it is formed as the grammar builds trees, its identifiers
differ, and its term is within the limit of the reader of programs. `parse_reading` says how the
parts of such a parse hang together.
-/

namespace MessageSelector

/-- A scan stops in front of a number without a value. -/
theorem Scan.valued_of_mem {offset : Nat} {cs : List Char} {t : Token}
    (h : t ∈ (textFrom offset cs).tokens) : t.Valued := by
  fun_induction textFrom offset cs with
  | case1 => cases h
  | case2 => cases h
  | case3 => cases h
  | case4 offset c rest n heq ih => exact ih h
  | case5 => cases h
  | case6 offset c rest kind n heq token hstop ih =>
    rcases List.mem_cons.1 h with rfl | h
    · simpa [Token.Valued] using hstop
    · exact ih h

namespace Node

/-- What the passes over a tree need. -/
structure Accepted (tree : Node) : Prop where
  formed : tree.Formed Token.Valued
  nodup : (tree.preorder.map id).Nodup
  depth_le : tree.term.depth ≤ maxTermDepth

end Node

theorem tokenize_valued {text : String} {tokens : List Token} (h : tokenize text = .ok tokens) :
    ∀ t ∈ tokens, t.Valued := by
  rw [tokenize, Scan.result] at h
  split at h
  · cases h
    exact fun t ht => Scan.valued_of_mem ht
  · cases h

/-- What parsing a text can end with. -/
inductive Reading (text : String) : Except SyntaxError Node → Prop
  | lex (e : LexError) : Reading text (.error (.lex e))
  | parse (e : ParseError) : Reading text (.error (.parse e))
  | ok {tokens : List Token} {d : Derivation} {tree : Node} :
    tokenize text = .ok tokens → d.IsSentence tokens → d.tree? = some tree →
      d.calls ≤ maxRuleDepth + 1 → Reading text (.ok tree)

theorem parse_reading (text : String) : Reading text (parse text) := by
  rw [MessageSelector.parse]
  split
  · exact .lex _
  · next tokens htokens =>
    by_cases hne : tokens = []
    · subst hne
      exact .parse .empty
    · have hout := Parser.parse_nested hne
      generalize (Parser.ofList tokens).parse = res at hout
      cases hout with
      | ok hd htree hkeep => exact .ok htokens hd htree (hd.shallow_iff.1 (hkeep _ rfl))
      | noMatch | trailing | tooDeep => exact .parse _

/-- The tree of a text is what the passes over a tree need. -/
theorem parse_accepted {text : String} {tree : Node} (h : parse text = .ok tree) :
    tree.Accepted := by
  have hreading := parse_reading text
  rw [h] at hreading
  cases hreading with
  | @ok tokens d _ htokens hd htree hcalls =>
    obtain ⟨tree', htree', hformed⟩ := hd.tree_formed (tokenize_valued htokens)
    rw [htree] at htree'
    cases htree'
    have hdepth := hd.depth_term_le htree
    have hheight := d.height_le_calls
    refine ⟨hformed, ?_, ?_⟩
    · rw [Derivation.preorder_tree htree]
      exact List.nodup_range
    · simp only [maxRuleDepth, maxTermDepth] at *
      omega

end MessageSelector
