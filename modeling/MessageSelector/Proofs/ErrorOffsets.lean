import Mathlib.Data.List.DropRight
import MessageSelector.Proofs.ErrorPositions
import MessageSelector.Proofs.Layout
import MessageSelector.Proofs.Reparsing

/-!
# Offsets of errors

A failed parse reports, with a position in the tokens, the offset of this position in the text
(`parse_error_offset`). The parser knows of the text only what its tokens say: where they start and
which texts they have (`Token.StandsIn`). That is enough for a position of a token, whose offset
counts the characters in front of it. Behind the last token the offset is the end of that token, and
blanks that follow it in the text are not counted (`Text.lengthTrimmed`).
-/

namespace MessageSelector

/-! ## Ends of tokens -/

namespace Token

open LexemeClass (keywords symbols literals table_eq)

theorem HexText.not_isBlank {text : List Char} (h : HexText text) :
    ∀ c ∈ text, Text.isBlank c = false := by
  cases h with
  | @intro x digits hx _ hdigits =>
    refine List.forall_mem_cons.2 ⟨by decide, List.forall_mem_cons.2 ⟨?_, fun c hc => ?_⟩⟩
    · rcases hx with rfl | rfl <;> decide
    · exact not_isBlank_of (p := fun c => (hexDigit? c).isSome) (by decide) (hdigits c hc)

theorem IdentText.not_isBlank {text : List Char} (h : IdentText text) :
    ∀ c ∈ text, Text.isBlank c = false := by
  obtain ⟨c, body, rfl, hc, hbody⟩ := h.start
  exact List.forall_mem_cons.2 ⟨not_isBlank_of_isIdentBody (isIdentBody_of_isIdentStart hc),
    fun d hd => not_isBlank_of_isIdentBody (hbody d hd)⟩

/-- A literal ends with no blank. Only a string may hold blanks, and it ends with a quote. -/
theorem Found.not_isBlank_literal {t : Token} (h : t.Found)
    (hk : some t.kind ∈ literals.map LexemeClass.kind?) :
    ∀ c, t.text.toList.getLast? = some c → Text.isBlank c = false := by
  intro c hc
  have hmem := List.mem_of_getLast? hc
  have hk : t.kind = .string ∨ t.kind = .hex ∨ t.kind = .float ∨ t.kind = .int ∨
      t.kind = .ident := by
    simpa [literals] using hk
  rcases hk with hk | hk | hk | hk | hk
  · obtain ⟨body, -, htext⟩ := h.quotedText hk
    rw [htext, ← List.cons_append, List.getLast?_append_of_ne_nil _ (by simp)] at hc
    cases hc
    decide
  · exact (h.hexText hk).not_isBlank c hmem
  · exact not_isBlank_of (p := inNumber) (by decide) ((h.floatText hk).inNumber c hmem)
  · exact not_isBlank_of (p := Char.isDigit) (by decide) ((h.intText hk).digits c hmem)
  · exact (h.identText hk).not_isBlank c hmem

/-- A token ends with no blank. -/
theorem Found.not_isBlank_last {t : Token} (h : t.Found) :
    ∀ c, t.text.toList.getLast? = some c → Text.isBlank c = false := by
  obtain ⟨cs, n, hfirst, htext⟩ := h.found
  obtain ⟨lexeme, hmem, hfind⟩ := List.exists_of_findSome?_eq_some hfirst
  obtain ⟨m, hlength, heq⟩ := Option.map_eq_some_iff.1 hfind
  obtain ⟨hkind, rfl⟩ := Prod.mk.inj heq
  rw [table_eq] at hmem
  rcases List.mem_cons.1 hmem with rfl | hmem
  · cases hkind
  rcases List.mem_append.1 hmem with hkeyword | hmem
  · obtain ⟨_, word, words, rfl, hwords⟩ := eq_keyword_of_mem hkeyword
    obtain ⟨text, rest, rfl, rfl, hspelled, -⟩ := keywordLength?_split hlength
    rw [htext, List.take_left]
    exact hspelled.not_isBlank_last hwords
  rcases List.mem_append.1 hmem with hsymbol | hliteral
  · obtain ⟨kind, rfl, hplain⟩ := eq_symbol_of_mem hsymbol
    obtain ⟨⟨rest, rfl⟩, rfl⟩ := symbolLength?_eq_some_iff.1 hlength
    rw [htext, List.take_left]
    exact fun c hc => hplain c (List.mem_of_getLast? hc)
  · exact h.not_isBlank_literal (List.mem_map.2 ⟨lexeme, hliteral, hkind⟩)

end Token

/-! ## Where tokens stand -/

/-- The text of the token stands in the characters behind as many others as its offset says. -/
def Token.StandsIn (t : Token) (cs : List Char) : Prop :=
  ∃ before after, cs = before ++ (t.text.toList ++ after) ∧ t.offset = before.length

/-- The number of characters up to the last one that is no blank. -/
def Text.lengthTrimmed (cs : List Char) : Nat :=
  (cs.rdropWhile Text.isBlank).length

theorem Text.lengthTrimmed_append {cs last : List Char} (hlast : ∀ c ∈ last, Text.isBlank c)
    (hcs : ∀ c, cs.getLast? = some c → Text.isBlank c = false) :
    Text.lengthTrimmed (cs ++ last) = cs.length := by
  have hself : cs.rdropWhile Text.isBlank = cs := by
    rw [List.rdropWhile_eq_self_iff]
    intro hne
    simp [hcs _ (List.getLast?_eq_some_getLast hne)]
  have hreverse : ∀ c ∈ last.reverse, Text.isBlank c := by simpa using hlast
  rw [Text.lengthTrimmed, List.rdropWhile, List.reverse_append,
    List.dropWhile_append_of_pos hreverse]
  exact congrArg List.length hself

/-- Nothing is trimmed from a text that ends with no blank, and from no other. -/
theorem Text.lengthTrimmed_eq_iff {cs : List Char} :
    Text.lengthTrimmed cs = cs.length ↔ ∀ c, cs.getLast? = some c → Text.isBlank c = false := by
  constructor
  · intro h c hc
    have hself := (List.rdropWhile_prefix Text.isBlank cs).eq_of_length h
    obtain ⟨front, rfl⟩ := List.getLast?_eq_some_iff.1 hc
    have hlast := List.rdropWhile_eq_self_iff.1 hself (by simp)
    simpa using hlast
  · intro h
    simpa using Text.lengthTrimmed_append (List.forall_mem_nil _) h

namespace Scan

variable {cs : List Char} {s : Scan} {pieces : List Piece} {last : List Char}

/-- Every token stands in the text where its offset says. -/
theorem Lossless.standsIn (h : Lossless 0 cs s pieces last) : ∀ t ∈ s.tokens, t.StandsIn cs := by
  intro t ht
  rw [h.tokens_eq] at ht
  obtain ⟨p, hp, rfl⟩ := List.mem_map.1 ht
  obtain ⟨before, after, rfl⟩ := List.append_of_mem hp
  refine ⟨before.flatMap Piece.text ++ p.gap,
    after.flatMap Piece.text ++ (last ++ s.residue.toList), ?_, ?_⟩
  · rw [h.text_eq]
    simp [Piece.text]
  · rw [h.offset_eq before p after rfl, Nat.zero_add]

/-- If nothing is left over, the last token ends where the blanks at the end of the text start. -/
theorem Lossless.stop_eq (h : Lossless 0 cs s pieces last) (hresidue : s.residue = "")
    {front : List Token} {t : Token} (htokens : s.tokens = front ++ [t]) (ht : t.Found) :
    t.stop = Text.lengthTrimmed cs := by
  have hpieces := h.tokens_eq.symm.trans htokens
  obtain ⟨before, single, rfl, -, hsingle⟩ := List.map_eq_append_iff.1 hpieces
  obtain ⟨p, rfl, rfl⟩ := List.map_eq_singleton_iff.1 hsingle
  have hcs : cs = before.flatMap Piece.text ++ p.gap ++ p.token.text.toList ++ last := by
    rw [h.text_eq, hresidue]
    simp [Piece.text]
  have hlast : ∀ c, (before.flatMap Piece.text ++ p.gap ++ p.token.text.toList).getLast? = some c →
      Text.isBlank c = false := by
    rw [List.getLast?_append_of_ne_nil _ ht.ne_nil]
    exact ht.not_isBlank_last
  rw [hcs, Text.lengthTrimmed_append h.last_blank hlast, Token.stop,
    h.offset_eq before p [] rfl, Nat.zero_add, ← String.length_toList, ← List.length_append]

end Scan

/-- The tokens of a text stand in it, and the last one ends where the blanks at its end start. -/
theorem tokenize_stands {text : String} {tokens : List Token} (h : tokenize text = .ok tokens) :
    (∀ t ∈ tokens, t.StandsIn text.toList) ∧
      ∀ front t, tokens = front ++ [t] → t.stop = Text.lengthTrimmed text.toList := by
  have hscanned := tokenize_scanned h
  obtain ⟨pieces, last, hlossless⟩ := (Scan.textFrom_cuts 0 text.toList).lossless
  rw [tokenize, Scan.result] at h
  split at h
  · next hcomplete =>
    cases h
    refine ⟨hlossless.standsIn, fun front t htokens => ?_⟩
    refine hlossless.stop_eq (String.isEmpty_iff.1 hcomplete) htokens (hscanned t ?_).found
    rw [htokens]
    exact List.mem_append_right _ List.mem_cons_self
  · cases h

/-! ## Where errors are reported -/

namespace TokenStream

variable {tokens : List Token} {position : Nat}

/-- The place of a token is said by the token. -/
theorem place_of_token {t : Token} (ht : tokens[position]? = some t) :
    (ofList tokens).foundAt position = t.text ∧ (ofList tokens).offsetAt position = t.offset := by
  have hget : (ofList tokens).get? position = some t := by simpa [ofList, get?] using ht
  simp [foundAt, offsetAt, hget]

/-- The place behind all tokens is said by the last one. -/
theorem place_of_end {front : List Token} {t : Token} (htokens : tokens = front ++ [t])
    (hposition : position = tokens.length) :
    (ofList tokens).foundAt position = "end of input" ∧
      (ofList tokens).offsetAt position = t.stop := by
  have hnone : (ofList tokens).get? position = none := by simp [ofList, get?, hposition]
  have hlast : (ofList tokens).get? front.length = some t := by simp [ofList, get?, htokens]
  obtain rfl : position = front.length + 1 := by simp [hposition, htokens]
  simp [foundAt, offsetAt, hnone, hlast]

end TokenStream

namespace Parser

variable {tokens : List Token} {position offset : Nat} {found : String}

/-- What a failed parse says of its position is read off the tokens. -/
theorem place_of_error
    (h : (Parser.ofList tokens).parse = .error (.parse (.noMatch position offset found)) ∨
      (Parser.ofList tokens).parse = .error (.parse (.trailingTokens position offset found))) :
    found = (TokenStream.ofList tokens).foundAt position ∧
      offset = (TokenStream.ofList tokens).offsetAt position := by
  have hkept : Kept (.free tokens) (Parser.ofList tokens) := .start (.free tokens) 0
  have hanswers := (hkept.recognize Rule.root 0 (Nat.zero_le _)).2
  unfold Parser.parse at h
  split at h
  · rcases h with h | h <;> cases h
  rcases hcall : (Parser.ofList tokens).recognize Rule.root 0 with ⟨out, p'⟩
  rw [hcall] at h hanswers
  -- The cursor may have moved, but the tokens are the same.
  cases hanswers with
  | tooDeep => rcases h with h | h <;> cases h
  | unmatched =>
    rcases h with h | h <;> cases h
    exact ⟨rfl, rfl⟩
  | matched =>
    dsimp only at h
    split at h
    · rcases h with h | h <;> cases h
      exact ⟨rfl, rfl⟩
    · split at h <;> rcases h with h | h <;> cases h

/-- The position is a place in the tokens, and tokens that are left over start with one. -/
theorem position_of_error :
    ((Parser.ofList tokens).parse = .error (.parse (.noMatch position offset found)) →
      position ≤ tokens.length) ∧
    ((Parser.ofList tokens).parse = .error (.parse (.trailingTokens position offset found)) →
      position < tokens.length) := by
  constructor
  · intro h
    exact (parse_noMatch h).2.1.le_length (Nat.zero_le _)
  · intro h
    have hne : tokens ≠ [] := by
      rintro rfl
      cases h
    have hout := parse_outcome (Discipline.free tokens) hne (Nat.zero_le _)
    rw [h] at hout
    cases hout with
    | trailing _ hlt => exact hlt

end Parser

/-- **Offsets of errors are places in the text.** The position that a failed parse reports is one
of the tokens or behind all of them, and behind none if tokens are left over. A token at the
position is named by its text, and the offset is the number of characters in front of this text.
Behind the last token the offset is the number of characters up to the last one that is no blank,
so it is the length of the text unless the text ends with a blank. -/
theorem parse_error_offset (text : String) (position offset : Nat) (found : String)
    (h : parse text = .error (.parse (.noMatch position offset found)) ∨
      parse text = .error (.parse (.trailingTokens position offset found))) :
    ∃ tokens, tokenize text = .ok tokens ∧ position ≤ tokens.length ∧
      (parse text = .error (.parse (.trailingTokens position offset found)) →
        position < tokens.length) ∧
      (∀ t, tokens[position]? = some t →
        found = t.text ∧ offset = t.offset ∧ t.StandsIn text.toList) ∧
      (position = tokens.length → found = "end of input" ∧
        offset = Text.lengthTrimmed text.toList ∧
        (offset = text.length ↔
          ∀ c, text.toList.getLast? = some c → Text.isBlank c = false)) := by
  rw [parse] at h
  rcases htokens : tokenize text with e | tokens
  · rw [htokens] at h
    rcases h with h | h <;> cases h
  rw [htokens] at h
  obtain ⟨hstands, hstop⟩ := tokenize_stands htokens
  obtain ⟨rfl, rfl⟩ := Parser.place_of_error h
  have hparse : parse text = (Parser.ofList tokens).parse := by rw [parse, htokens]
  refine ⟨tokens, rfl, ?_, fun htrailing => ?_, fun t ht => ?_, fun hend => ?_⟩
  · exact h.elim Parser.position_of_error.1 fun h => (Parser.position_of_error.2 h).le
  · exact Parser.position_of_error.2 (hparse ▸ htrailing)
  · obtain ⟨hfound, hoffset⟩ := TokenStream.place_of_token ht
    exact ⟨hfound, hoffset, hstands t (List.mem_of_getElem? ht)⟩
  · obtain ⟨front, t, hsplit⟩ : ∃ front t, tokens = front ++ [t] := by
      refine (List.eq_nil_or_concat' tokens).resolve_left ?_
      rintro rfl
      rcases h with h | h <;> cases h
    obtain ⟨hfound, hoffset⟩ := TokenStream.place_of_end hsplit hend
    rw [hoffset, hstop front t hsplit, ← String.length_toList]
    exact ⟨hfound, rfl, Text.lengthTrimmed_eq_iff⟩

theorem tokenize_not_blank : tokenize "NOT " = .ok [⟨.not, "NOT", 0⟩] := by
  decide +kernel

/-- The blank behind `NOT` is not counted. -/
theorem parse_not_blank : parse "NOT " = .error (.parse (.noMatch 1 3 "end of input")) := by
  let negation : Token := ⟨.not, "NOT", 0⟩
  obtain ⟨offset, found, hparse⟩ :=
    @Parser.parse_not negation [] (Nat.zero_le _) rfl (fun _ h => nomatch h)
  obtain ⟨rfl, rfl⟩ := Parser.place_of_error (.inl hparse)
  have hoffset : (TokenStream.ofList [negation]).offsetAt 1 = 3 := by decide +kernel
  rw [hoffset] at hparse
  rw [parse, tokenize_not_blank]
  exact hparse

/-- The second of two identifiers is found where it stands, and the end of input behind `NOT` where
the blank starts. -/
theorem parse_error_offset_places :
    parse "a b" = .error (.parse (.trailingTokens 1 2 "b")) ∧
    (⟨.ident, "b", 2⟩ : Token).StandsIn "a b".toList ∧
    parse "NOT " = .error (.parse (.noMatch 1 3 "end of input")) ∧
    Text.lengthTrimmed "NOT ".toList = 3 := by
  let a : Token := ⟨.ident, "a", 0⟩
  let b : Token := ⟨.ident, "b", 2⟩
  have htokens : tokenize "a b" = .ok [a, b] := by decide +kernel
  have hparse : parse "a b" = .error (.parse (.trailingTokens 1 2 "b")) := by
    obtain ⟨offset, found, hparse⟩ := @Parser.parse_ident a b rfl (by decide)
    obtain ⟨rfl, rfl⟩ := Parser.place_of_error (.inr hparse)
    rw [parse, htokens]
    exact hparse
  obtain ⟨_, htoken, -, -, hplaces, -⟩ := parse_error_offset "a b" 1 2 "b" (.inr hparse)
  obtain ⟨_, hend, -, -, -, hends⟩ :=
    parse_error_offset "NOT " 1 3 "end of input" (.inl parse_not_blank)
  cases htokens.symm.trans htoken
  cases tokenize_not_blank.symm.trans hend
  exact ⟨hparse, (hplaces b rfl).2.2, parse_not_blank, (hends rfl).2.1.symm⟩

/-- The offset of the end of input is not always the length of the text. -/
theorem parse_error_offset_not_length :
    ¬ ∀ (text : String) (tokens : List Token) (position offset : Nat) (found : String),
      parse text = .error (.parse (.noMatch position offset found)) →
        tokenize text = .ok tokens → position = tokens.length → offset = text.length := by
  intro h
  exact absurd (h _ _ _ _ _ parse_not_blank tokenize_not_blank rfl) (by decide)

end MessageSelector
