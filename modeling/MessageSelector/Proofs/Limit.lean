import MessageSelector.Proofs.Acceptance
import MessageSelector.Proofs.Nesting

/-!
# The limit of nesting

The limit of recognition is met where the calls of plain recognition nest too deeply, and nowhere
else (`parse_nested`): the memo neither hides a call that is too deep nor makes one. For tokens that
have a derivation the number of calls that nest is read off the derivation (`parse_eq_ok_iff`,
`parse_tooDeep_iff`).
-/

namespace MessageSelector

/-- What plain recognition calls within the limit is called within it with a memo. -/
def Discipline.shallow (tokens : List Token) : Discipline tokens where
  call := Shallow tokens
  keep _ _ := True
  admits h htries := h _ _ htries
  keeps _ _ := trivial

namespace Parser

variable {tokens : List Token} {d : Derivation} {tree : Node}

theorem parse_nested (hne : tokens ≠ []) :
    Outcome (Discipline.nested tokens) (Parser.ofList tokens).parse :=
  parse_outcome (Discipline.nested tokens) hne ⟨⟨rfl, rfl⟩, rfl⟩

/-- Tokens that are parsed have a derivation whose calls are within the limit. -/
theorem derivation_of_parse (h : (Parser.ofList tokens).parse = .ok tree) :
    ∃ d : Derivation, d.IsSentence tokens ∧ d.tree? = some tree ∧ d.calls ≤ maxRuleDepth + 1 := by
  have hne : tokens ≠ [] := by
    rintro rfl
    cases h
  have hout := parse_nested hne
  rw [h] at hout
  cases hout with
  | ok hd htree hkeep => exact ⟨_, hd, htree, hd.shallow_iff.1 (hkeep _ rfl)⟩

/-- **The limit is exact.** Tokens with a derivation are parsed if and only if the calls that find
the derivation are within the limit. -/
theorem parse_eq_ok_iff (hd : d.IsSentence tokens) (htree : d.tree? = some tree) :
    (Parser.ofList tokens).parse = .ok tree ↔ d.calls ≤ maxRuleDepth + 1 := by
  refine ⟨fun h => ?_, fun hcalls => ?_⟩
  · obtain ⟨d', hd', -, hcalls⟩ := derivation_of_parse h
    rwa [hd.unique hd']
  · rcases parse_or_tooDeep hd htree with h | ⟨position, offset, h⟩
    · exact h
    · have hne : tokens ≠ [] := by
        rintro rfl
        cases h
      have hout := parse_outcome (Discipline.shallow tokens) hne (hd.shallow_iff.2 hcalls)
      rw [h] at hout
      cases hout with
      | tooDeep hcall => exact hcall.elim

/-- Tokens with a derivation nest too deeply if and only if the calls that find the derivation are
beyond the limit. -/
theorem parse_tooDeep_iff (hd : d.IsSentence tokens) (htree : d.tree? = some tree) :
    (∃ position offset,
        (Parser.ofList tokens).parse = .error (.parse (.tooDeep position offset))) ↔
      maxRuleDepth + 1 < d.calls := by
  have hiff := parse_eq_ok_iff hd htree
  rw [← Nat.not_le, ← hiff]
  refine ⟨?_, fun hfails => (parse_or_tooDeep hd htree).resolve_left hfails⟩
  rintro ⟨position, offset, hdeep⟩ hok
  cases hok.symm.trans hdeep

end Parser

end MessageSelector
