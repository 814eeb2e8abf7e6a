import Mathlib.Data.List.Nodup
import MessageSelector.Node.Printer
import MessageSelector.Proofs.Numerals
import MessageSelector.Proofs.OrderedChoice

/-!
# Scanning printed words

What a printed tree puts behind an operand ends every operand (`Follows`): nothing, a closing
bracket, a comma, or a blank and an operator. So an operand is scanned again as what it was
(`firstLexeme?_printLeaf`), and an identifier makes no keyword together with what follows it
(`IdentText.firstLexeme?`). Operators are printed with a blank behind them, or a closing bracket if
no operand follows.
-/

namespace MessageSelector.Token

open LexemeClass (keywords literals table_eq)

/-- Whether an operator is printed with a blank in front of it. -/
def Kind.isInfix (kind : Kind) : Bool :=
  kind.binary?.isSome || kind.ternaryNegated?.isSome || kind.postfixNegated?.isSome ||
    kind = .escape

namespace Kind

theorem isInfix_of_binary {kind : Kind} {op : BinaryOperator} (h : kind.binary? = some op) :
    kind.isInfix := by
  simp [isInfix, h]

theorem isInfix_of_ternary {kind : Kind} {negated : Bool}
    (h : kind.ternaryNegated? = some negated) : kind.isInfix := by
  simp [isInfix, h]

theorem isInfix_of_postfix {kind : Kind} {negated : Bool}
    (h : kind.postfixNegated? = some negated) : kind.isInfix := by
  simp [isInfix, h]

end Kind

/-- What a printed tree puts behind an operand. -/
inductive Follows : List Char → Prop
  | done : Follows []
  | close (rest : List Char) : Follows (')' :: rest)
  | comma (rest : List Char) : Follows (',' :: rest)
  | operator {kind : Kind} (rest : List Char) : kind.isInfix →
    Follows (' ' :: (kind.spelling.toList ++ rest))

theorem Follows.ends {rest : List Char} (h : Follows rest) : Ends rest := by
  cases h <;> rintro _ ⟨⟩ <;> decide

/-- What follows an operand does not make a null test of an identifier in front of it. -/
theorem Follows.not_null {rest : List Char} (h : Follows rest) {words : List String}
    (hwords : words = ["NULL"] ∨ words = ["NOT", "NULL"]) :
    ((someRunLength? Text.isBlank rest).bind fun blanks =>
      wordsLength? (words.map String.toList) (rest.drop blanks)) = none := by
  cases h with
  | done | close | comma => rfl
  | @operator kind rest hkind =>
    rcases hwords with rfl | rfl <;> cases kind <;> first | rfl | contradiction

/-! ## Words -/

theorem wordLength?_length {word cs : List Char} {n : Nat} (h : wordLength? word cs = some n) :
    n = word.length ∧ n ≤ cs.length := by
  induction word generalizing cs n with
  | nil =>
    cases h
    exact ⟨rfl, Nat.zero_le _⟩
  | cons w word ih =>
    cases cs with
    | nil => cases h
    | cons c cs =>
      rw [wordLength?] at h
      split at h
      · obtain ⟨m, hm, rfl⟩ := Option.map_eq_some_iff.1 h
        have := ih hm
        simp only [List.length_cons]
        omega
      · cases h

theorem wordLength?_append_of_some {word text rest : List Char} {n : Nat}
    (h : wordLength? word text = some n) : wordLength? word (text ++ rest) = some n := by
  induction word generalizing text n with
  | nil => exact h
  | cons w word ih =>
    cases text with
    | nil => cases h
    | cons c text =>
      rw [wordLength?] at h
      split at h
      · next hw =>
        obtain ⟨m, hm, rfl⟩ := Option.map_eq_some_iff.1 h
        rw [List.cons_append, wordLength?, if_pos hw, ih hm]
        rfl
      · cases h

/-- Whether no letter of a word is a blank, a closing bracket or a comma. -/
def isPlainWord (word : List Char) : Bool :=
  word.all fun w => enders.all (!isLetter w ·)

/-- A word does not go on behind the end of a lexeme. -/
theorem wordLength?_append {word text rest : List Char} (hword : isPlainWord word)
    (hrest : Ends rest) : wordLength? word (text ++ rest) = wordLength? word text := by
  induction text generalizing word with
  | nil =>
    cases word with
    | nil => rfl
    | cons w word =>
      rw [List.nil_append]
      cases rest with
      | nil => rfl
      | cons c rest =>
        rw [isPlainWord, List.all_cons, Bool.and_eq_true] at hword
        have hc : isLetter w c = false := hrest.head hword.1 c rfl
        simp only [wordLength?, hc, Bool.false_eq_true, ↓reduceIte]
  | cons c text ih =>
    cases word with
    | nil => rfl
    | cons w word =>
      rw [isPlainWord, List.all_cons, Bool.and_eq_true] at hword
      rw [List.cons_append, wordLength?, wordLength?, ih hword.2]

/-- Words behind one that was found. -/
theorem wordsLength?_cons {word w text rest : List Char} {words : List (List Char)}
    (h : wordLength? word (text ++ rest) = some text.length) :
    wordsLength? (word :: w :: words) (text ++ rest) =
      (someRunLength? Text.isBlank rest).bind fun blanks =>
        (wordsLength? (w :: words) (rest.drop blanks)).map fun more =>
          text.length + blanks + more := by
  rw [wordsLength?.eq_3 _ _ _ (List.cons_ne_nil _ _), h, Option.bind_some, List.drop_left]
  simp only [← List.drop_drop, List.drop_left]

/-! ## Identifiers -/

def singleWords : List String :=
  ["BETWEEN", "IN", "LIKE", "ESCAPE", "NOT", "AND", "OR", "TRUE", "FALSE"]

theorem keyword_mem_keywords {word : String} (h : word ∈ singleWords) :
    ∃ kind, LexemeClass.keyword kind [word] ∈ keywords := by
  revert word
  simp only [singleWords, List.forall_mem_cons]
  refine ⟨⟨.between, ?_⟩, ⟨.inList, ?_⟩, ⟨.like, ?_⟩, ⟨.escape, ?_⟩, ⟨.not, ?_⟩, ⟨.and, ?_⟩,
    ⟨.or, ?_⟩, ⟨.trueWord, ?_⟩, ⟨.falseWord, ?_⟩, List.forall_mem_nil _⟩
  all_goals simp [keywords]

/-- The text of an identifier. -/
structure IdentText (text : List Char) : Prop where
  start : ∃ c body, text = c :: body ∧ isIdentStart c ∧ ∀ d ∈ body, isIdentBody d
  noKeyword : ∀ word ∈ singleWords, wordLength? word.toList text ≠ some text.length

theorem toNat_of_isAlpha {c : Char} (h : c.isAlpha) : 65 ≤ c.toNat ∧ c.toNat ≤ 122 := by
  have hranges : decide ('A'.val ≤ c.val ∧ c.val ≤ 'Z'.val) ||
      (decide ('a'.val ≤ c.val) && decide (c.val ≤ 'z'.val)) := h
  simp only [Bool.or_eq_true, Bool.and_eq_true, decide_eq_true_eq, UInt32.le_iff_toNat_le,
    Char.reduceVal, UInt32.reduceToNat, Char.toNat_val] at hranges
  omega

theorem not_isBlank_of_isIdentBody {c : Char} (h : isIdentBody c) : Text.isBlank c = false :=
  not_isBlank_of (by decide) h

theorem isIdentBody_of_isIdentStart {c : Char} (h : isIdentStart c) : isIdentBody c := by
  simp only [isIdentStart, isIdentBody, Char.isAlphanum, Bool.or_eq_true] at h ⊢
  rcases h with (h | h) | h
  · exact .inl (.inl (.inl (.inl h)))
  · exact .inl (.inl (.inr h))
  · exact .inl (.inr h)

/-- An identifier starts with no character that a symbol, a string or a number starts with. -/
theorem starts_of_isIdentStart {c : Char} (h : isIdentStart c) :
    startsSymbol c = false ∧ c.isDigit = false ∧ c ≠ '\'' ∧ c ≠ '.' := by
  simp only [isIdentStart, Bool.or_eq_true, decide_eq_true_eq] at h
  rcases h with (h | rfl) | rfl
  · have hrange := toNat_of_isAlpha h
    refine ⟨?_, ?_, ?_, ?_⟩
    · rw [← Bool.not_eq_true, startsSymbol, List.contains_iff_mem]
      intro hc
      simp only [List.mem_cons, List.not_mem_nil, or_false] at hc
      rcases hc with rfl | rfl | rfl | rfl | rfl | rfl | rfl | rfl | rfl | rfl <;>
        exact absurd h (by decide)
    · rw [← Bool.not_eq_true, Char.isDigit_iff_toNat]
      intro hc
      have hhigh : c.toNat ≤ 57 := hc.2
      omega
    · rintro rfl
      exact absurd h (by decide)
    · rintro rfl
      exact absurd h (by decide)
  · decide
  · decide

section Keywords

variable {text rest : List Char} {word : String} {words : List String}

/-- No keyword starts with a word that goes on. -/
theorem keywordLength?_of_longer (hword : isPlainWord word.toList) (hne : word.toList ≠ [])
    (hbody : ∀ d ∈ text.tail, isIdentBody d) (hrest : Ends rest)
    (h : wordLength? word.toList text ≠ some text.length) :
    keywordLength? ((word :: words).map String.toList) (text ++ rest) = none := by
  have hlength := @wordLength?_append _ text _ hword hrest
  cases hn : wordLength? word.toList text with
  | none =>
    rw [hn] at hlength
    cases words <;> simp [keywordLength?, wordsLength?, hlength]
  | some n =>
    obtain ⟨hword, hle⟩ := wordLength?_length hn
    -- The word ends inside the text, so a character of an identifier follows it.
    have hlt : n < text.length := by
      refine Nat.lt_of_le_of_ne hle ?_
      rintro rfl
      exact h hn
    have hpos : 0 < n := by
      rw [hword]
      exact List.length_pos_iff.2 hne
    obtain ⟨d, more, hdrop, hd⟩ : ∃ d more, (text ++ rest).drop n = d :: more ∧ isIdentBody d := by
      refine ⟨text[n], text.drop (n + 1) ++ rest, ?_, hbody _ ?_⟩
      · rw [List.drop_append_of_le_length hle, List.drop_eq_getElem_cons hlt, List.cons_append]
      · rw [List.mem_iff_getElem]
        refine ⟨n - 1, by rw [List.length_tail]; omega, ?_⟩
        rw [List.getElem_tail]
        congr 1
        omega
    rw [hn] at hlength
    cases words with
    | nil => simp [keywordLength?, wordsLength?, hlength, hdrop, hd]
    | cons w words =>
      have hblank : someRunLength? Text.isBlank (d :: more) = none := by
        refine someRunLength?_eq_none_iff.2 ?_
        rintro _ ⟨⟩
        exact not_isBlank_of_isIdentBody hd
      simp [keywordLength?, wordsLength?, hlength, hdrop, hblank]

/-- No null test starts with an identifier and what a printed tree puts behind it. -/
theorem keywordLength?_null (hwords : words = ["NULL"] ∨ words = ["NOT", "NULL"])
    (hbody : ∀ d ∈ text.tail, isIdentBody d) (hrest : Follows rest) :
    keywordLength? (("IS" :: words).map String.toList) (text ++ rest) = none := by
  -- An identifier can be spelled `IS`; then what is printed behind it decides.
  by_cases h : wordLength? "IS".toList text = some text.length
  · have hlength := @wordLength?_append_of_some _ _ rest _ h
    have hnull := hrest.not_null hwords
    obtain ⟨w, words, rfl⟩ : ∃ w more, words = w :: more := by
      rcases hwords with rfl | rfl <;> exact ⟨_, _, rfl⟩
    rw [List.map_cons, List.map_cons, keywordLength?, wordsLength?_cons hlength]
    cases hblank : someRunLength? Text.isBlank rest with
    | none => rfl
    | some blanks =>
      rw [hblank, Option.bind_some, List.map_cons] at hnull
      rw [Option.bind_some, hnull]
      rfl
  · exact keywordLength?_of_longer (by decide) (by decide) hbody hrest.ends h

end Keywords

/-- No keyword starts with an identifier and what a printed tree puts behind it. -/
theorem IdentText.keywords_none {text rest : List Char} (h : IdentText text)
    (hrest : Follows rest) : ∀ lexeme ∈ keywords, lexeme.length? (text ++ rest) = none := by
  have hbody : ∀ d ∈ text.tail, isIdentBody d := by
    obtain ⟨c, body, rfl, -, hbody⟩ := h.start
    exact hbody
  have hsingle {word : String} {words : List String} (hmem : word ∈ singleWords) :
      keywordLength? ((word :: words).map String.toList) (text ++ rest) = none := by
    have hword : ∀ word ∈ singleWords, isPlainWord word.toList ∧ word.toList ≠ [] := by decide
    exact keywordLength?_of_longer (hword word hmem).1 (hword word hmem).2 hbody hrest.ends
      (h.noKeyword word hmem)
  simp only [keywords, LexemeClass.keyword, List.forall_mem_cons]
  refine ⟨?_, ?_, ?_, keywordLength?_null (.inr rfl) hbody hrest,
    keywordLength?_null (.inl rfl) hbody hrest, ?_, ?_, ?_, ?_, ?_, ?_, ?_, ?_, ?_,
    List.forall_mem_nil _⟩
  all_goals exact hsingle (by decide)

/-- No literal but an identifier starts as an identifier does. -/
theorem literals_none {c : Char} (h : isIdentStart c) (cs : List Char) :
    ∀ lexeme ∈ literals.take 4, lexeme.length? (c :: cs) = none := by
  obtain ⟨-, hdigit, hquote, hpoint⟩ := starts_of_isIdentStart h
  simp only [literals, List.take_succ_cons, List.take_zero, List.forall_mem_cons]
  refine ⟨?_, ?_, floatLength?_eq_none_of_head hdigit hpoint, ?_, List.forall_mem_nil _⟩
  · exact stringLength?.eq_2 _ fun _ hcons => hquote (List.cons.inj hcons).1
  · refine hexLength?.eq_2 _ fun _ _ hcons => ?_
    rw [(List.cons.inj hcons).1] at hdigit
    exact absurd hdigit (by decide)
  · refine someRunLength?_eq_none_iff.2 ?_
    rintro _ ⟨⟩
    exact hdigit

/-- An identifier is found where it ends, if no keyword is. -/
theorem IdentText.firstLexeme? {text rest : List Char} (h : IdentText text) (hrest : Ends rest)
    (hkeywords : ∀ lexeme ∈ keywords, lexeme.length? (text ++ rest) = none) :
    Token.firstLexeme? (text ++ rest) = some (some .ident, text.length) := by
  obtain ⟨c, body, rfl, hc, hbody⟩ := h.start
  have hsymbol := (starts_of_isIdentStart hc).1
  have hblank := not_isBlank_of_isIdentBody (isIdentBody_of_isIdentStart hc)
  refine @firstLexeme?_of_literal c (body ++ rest) ⟨some .ident, identLength?⟩ _
    (literals.take 4) [] hblank hkeywords hsymbol rfl (literals_none hc _) ?_
  have hrun := runLength_append hbody (hrest.head (p := isIdentBody) (by decide))
  show identLength? (c :: (body ++ rest)) = some (body.length + 1)
  rw [identLength?, if_pos hc, hrun]

/-! ## Keywords and symbols -/

/-- An operator is found in front of a blank. -/
theorem firstLexeme?_operator {kind : Kind} (h : kind.isInfix) (rest : List Char) :
    firstLexeme? (kind.spelling.toList ++ ' ' :: rest) =
      some (some kind, kind.spelling.toList.length) := by
  cases kind <;> first | rfl | contradiction

/-- An operator behind its operand is found in front of a closing bracket. -/
theorem firstLexeme?_postfix {kind : Kind} {negated : Bool}
    (h : kind.postfixNegated? = some negated) (rest : List Char) :
    firstLexeme? (kind.spelling.toList ++ ')' :: rest) =
      some (some kind, kind.spelling.toList.length) := by
  cases kind <;> first | rfl | contradiction

/-- Brackets, commas and signs are found in front of anything. -/
theorem firstLexeme?_mark {kind : Kind}
    (h : kind ∈ [Kind.openParen, .closeParen, .comma, .plus, .minus]) (rest : List Char) :
    firstLexeme? (kind.spelling.toList ++ rest) =
      some (some kind, kind.spelling.toList.length) := by
  simp only [List.mem_cons, List.not_mem_nil, or_false] at h
  rcases h with rfl | rfl | rfl | rfl | rfl <;> rfl

/-- A truth value is found where it ends. -/
theorem firstLexeme?_truth {kind : Kind} (h : kind = .trueWord ∨ kind = .falseWord)
    {rest : List Char} (hrest : Follows rest) :
    firstLexeme? (kind.spelling.toList ++ rest) =
      some (some kind, kind.spelling.toList.length) := by
  rcases h with rfl | rfl <;> cases hrest <;> rfl

/-- Blanks are found in front of anything else. -/
theorem firstLexeme?_blanks {gap cs : List Char} (hne : gap ≠ [])
    (hgap : ∀ c ∈ gap, Text.isBlank c) (hcs : ∀ c, cs.head? = some c → Text.isBlank c = false) :
    firstLexeme? (gap ++ cs) = some (none, gap.length) :=
  @firstLexeme?_of_before _ ⟨none, someRunLength? Text.isBlank⟩ _ [] _ table_eq
    (List.forall_mem_nil _) (someRunLength?_append hne hgap hcs)

/-- What starts with an operand. -/
def Opens (cs : List Char) : Prop :=
  ∃ kind n, firstLexeme? cs = some (some kind, n) ∧ kind ∈ Rule.operandFirst

/-- Neither a blank nor a keyword that takes operands starts what starts with an operand. -/
theorem Opens.none_before {cs : List Char} (h : Opens cs) :
    (∀ c, cs.head? = some c → Text.isBlank c = false) ∧
      ∀ word ∈ ["BETWEEN", "IN", "LIKE"], keywordLength? [word.toList] cs = none := by
  obtain ⟨kind, n, hfound, hkind⟩ := h
  have hkinds : ∀ kind ∈ Rule.operandFirst,
      ∀ lexeme ∈ ⟨none, someRunLength? Text.isBlank⟩ :: keywords.take 8,
        lexeme.kind? ≠ some kind := by decide
  have hnone := @length?_eq_none_of_before _ _ n
    (⟨none, someRunLength? Text.isBlank⟩ :: keywords.take 8) _ rfl (hkinds kind hkind) hfound
  simp only [keywords, List.take_succ_cons, List.take_zero, List.forall_mem_cons,
    LexemeClass.keyword] at hnone
  obtain ⟨hblank, -, -, -, -, -, hbetween, hin, hlike, -⟩ := hnone
  exact ⟨someRunLength?_eq_none_iff.1 hblank, List.forall_mem_cons.2 ⟨hbetween,
    List.forall_mem_cons.2 ⟨hin, List.forall_mem_singleton.2 hlike⟩⟩⟩

/-- No keyword of two words starts with a negation in front of an operand. -/
theorem Opens.keywordLength?_not {cs : List Char} (h : Opens cs) {word : String}
    (hword : word ∈ ["BETWEEN", "IN", "LIKE"]) :
    keywordLength? (["NOT", word].map String.toList) ("NOT".toList ++ ' ' :: cs) = none := by
  obtain ⟨hblank, hwords⟩ := h.none_before
  have hnot : wordLength? "NOT".toList ("NOT".toList ++ ' ' :: cs) = some "NOT".toList.length := rfl
  have hone : someRunLength? Text.isBlank (' ' :: cs) = some 1 :=
    @someRunLength?_append _ [' '] cs (List.cons_ne_nil _ _) (List.forall_mem_singleton.2 rfl)
      hblank
  have hnone := hwords word hword
  rw [keywordLength?, wordsLength?] at hnone
  rw [List.map_cons, List.map_cons, keywordLength?, List.map_nil, wordsLength?_cons hnot, hone,
    Option.bind_some, List.drop_one, List.tail_cons, wordsLength?]
  cases hn : wordLength? word.toList cs with
  | none => rfl
  | some n =>
    -- What follows the word is the same with and without the negation in front.
    rw [hn, Option.bind_some] at hnone
    have hdrop : ("NOT".toList ++ ' ' :: cs).drop ("NOT".toList.length + 1 + n) = cs.drop n := by
      rw [← List.drop_drop]
      rfl
    rw [Option.map_some, Option.bind_some, hdrop]
    cases hcs : cs.drop n with
    | nil => simp [hcs] at hnone
    | cons c tail => simpa [hcs] using hnone

/-- A negation is found in front of a blank and an operand. -/
theorem Opens.firstLexeme?_not {cs : List Char} (h : Opens cs) :
    firstLexeme? ("NOT".toList ++ ' ' :: cs) = some (some .not, 3) := by
  refine @firstLexeme?_of_before _ (LexemeClass.keyword .not ["NOT"]) 3
    (⟨none, someRunLength? Text.isBlank⟩ :: keywords.take 9) _ rfl ?_ rfl
  simp only [keywords, List.take_succ_cons, List.take_zero, List.forall_mem_cons,
    LexemeClass.keyword]
  refine ⟨rfl, h.keywordLength?_not (by decide), h.keywordLength?_not (by decide),
    h.keywordLength?_not (by decide), rfl, rfl, rfl, rfl, rfl, rfl, List.forall_mem_nil _⟩

/-! ## Scanned tokens -/

/-- Somewhere a scan finds the text of the token as a token of its kind. -/
structure Found (t : Token) : Prop where
  found : ∃ cs n, firstLexeme? cs = some (some t.kind, n) ∧ t.text.toList = cs.take n
  ne_nil : t.text.toList ≠ []

/-- A lexeme is found by the only class of its kind. -/
theorem length?_of_firstLexeme? {cs : List Char} {lexeme : LexemeClass} {n : Nat}
    (hmem : lexeme ∈ LexemeClass.table) (h : firstLexeme? cs = some (lexeme.kind?, n)) :
    lexeme.length? cs = some n := by
  obtain ⟨before, found, after, htable, hfound, -⟩ := List.findSome?_eq_some_iff.1 h
  obtain ⟨m, hm, heq⟩ := Option.map_eq_some_iff.1 hfound
  obtain ⟨hkind, rfl⟩ := Prod.mk.inj heq
  have hnodup : (LexemeClass.table.map LexemeClass.kind?).Nodup := by decide
  have hmem' : found ∈ LexemeClass.table := by
    rw [htable]
    exact List.mem_append_right _ List.mem_cons_self
  rw [← List.inj_on_of_nodup_map hnodup hmem' hmem hkind]
  exact hm

namespace Found

variable {t : Token}

/-- The text of a literal is what its class finds somewhere. -/
theorem length? (h : t.Found) (lexeme : LexemeClass) (hmem : lexeme ∈ literals)
    (hk : some t.kind = lexeme.kind?) :
    ∃ cs n, firstLexeme? cs = some (lexeme.kind?, n) ∧ lexeme.length? cs = some n ∧
      t.text.toList = cs.take n := by
  obtain ⟨cs, n, hfirst, htext⟩ := h.found
  rw [hk] at hfirst
  refine ⟨cs, n, hfirst, length?_of_firstLexeme? ?_ hfirst, htext⟩
  rw [table_eq]
  exact List.mem_cons_of_mem _ (List.mem_append_right _ (List.mem_append_right _ hmem))

theorem quotedText (h : t.Found) (hk : t.kind = .string) :
    ∃ body, QuoteBody body ∧ t.text.toList = '\'' :: (body ++ ['\'']) := by
  obtain ⟨cs, n, -, hlength, htext⟩ := h.length? ⟨some .string, stringLength?⟩
    (by simp [literals]) (by rw [hk])
  obtain ⟨body, rest, rfl, rfl, hbody⟩ := stringLength?_split hlength
  refine ⟨body, hbody, ?_⟩
  rw [htext, List.take_succ_cons, List.take_length_add_append, List.take_succ_cons, List.take_zero]

theorem hexText (h : t.Found) (hk : t.kind = .hex) : HexText t.text.toList := by
  obtain ⟨cs, n, -, hlength, htext⟩ := h.length? ⟨some .hex, hexLength?⟩
    (by simp [literals]) (by rw [hk])
  obtain ⟨text, rest, rfl, rfl, hhex⟩ := hexLength?_split hlength
  rwa [htext, List.take_left]

theorem floatText (h : t.Found) (hk : t.kind = .float) : FloatText t.text.toList := by
  obtain ⟨cs, n, -, hlength, htext⟩ := h.length? ⟨some .float, floatLength?⟩
    (by simp [literals]) (by rw [hk])
  obtain ⟨text, rest, rfl, rfl, hfloat⟩ := floatLength?_split hlength
  rwa [htext, List.take_left]

theorem intText (h : t.Found) (hk : t.kind = .int) : IntText t.text.toList := by
  obtain ⟨cs, n, -, hlength, htext⟩ := h.length? ⟨some .int, someRunLength? Char.isDigit⟩
    (by simp [literals]) (by rw [hk])
  obtain ⟨text, rest, rfl, rfl, hint⟩ := intLength?_split hlength
  rwa [htext, List.take_left]

/-- Where an identifier was found, no keyword of one word was. -/
theorem identText (h : t.Found) (hk : t.kind = .ident) : IdentText t.text.toList := by
  obtain ⟨cs, n, hfirst, hlength, htext⟩ := h.length? ⟨some .ident, identLength?⟩
    (by simp [literals]) (by rw [hk])
  obtain ⟨c, body, rest, rfl, rfl, hc, hbody, hrest⟩ := identLength?_split hlength
  rw [htext, List.take_left]
  refine ⟨⟨c, body, rfl, hc, hbody⟩, fun word hword hspells => ?_⟩
  have hnone := @length?_eq_none_of_before _ _ _
    (⟨none, someRunLength? Text.isBlank⟩ :: keywords) _ table_eq (by decide) hfirst
  obtain ⟨kind, hkind⟩ := keyword_mem_keywords hword
  -- A keyword that spells the whole identifier would have ended where the identifier does.
  have hfound : keywordLength? [word.toList] (c :: body ++ rest) = some (c :: body).length := by
    rw [keywordLength?, wordsLength?, wordLength?_append_of_some hspells, Option.bind_some,
      List.drop_left]
    cases rest with
    | nil => rfl
    | cons d rest => simp [hrest d rfl]
  have hnone : keywordLength? [word.toList] (c :: body ++ rest) = none :=
    hnone _ (List.mem_cons_of_mem _ hkind)
  rw [hfound] at hnone
  cases hnone

/-- A literal is found again in front of what ends it, if no keyword makes part of an identifier. -/
theorem firstLexeme?_literal (h : t.Found) (hk : some t.kind ∈ literals.map LexemeClass.kind?)
    {rest : List Char} (hrest : Ends rest)
    (hkeywords : t.kind = .ident →
      ∀ lexeme ∈ keywords, lexeme.length? (t.text.toList ++ rest) = none) :
    firstLexeme? (t.text.toList ++ rest) = some (some t.kind, t.text.toList.length) := by
  cases hkind : t.kind <;> rw [hkind] at hk <;> first | exact absurd hk (by decide) | clear hk
  case string =>
    have hquote : rest.head? ≠ some '\'' := by
      intro hhead
      exact absurd (hrest _ hhead) (by decide)
    obtain ⟨body, hbody, htext⟩ := h.quotedText hkind
    rw [htext, List.cons_append, List.append_assoc, List.singleton_append,
      firstLexeme?_string hbody hquote]
    simp
  case hex => exact firstLexeme?_hex (h.hexText hkind) (hrest.head (by decide))
  case float => exact firstLexeme?_float (h.floatText hkind) hrest
  case int => exact firstLexeme?_int (h.intText hkind) hrest
  case ident => exact (h.identText hkind).firstLexeme? hrest (hkeywords hkind)

/-- An operand is found again as it is printed. -/
theorem firstLexeme?_printLeaf (h : t.Found) (hk : t.kind.isOperand) {rest : List Char}
    (hrest : Follows rest) :
    firstLexeme? ((Node.printLeaf t).toList ++ rest) =
      some (some t.kind, (Node.printLeaf t).toList.length) := by
  have hliteral (hmem : some t.kind ∈ literals.map LexemeClass.kind?) :=
    h.firstLexeme?_literal hmem hrest.ends fun hkind => (h.identText hkind).keywords_none hrest
  cases hkind : t.kind <;> rw [hkind] at hk hliteral <;>
    first | contradiction | rw [Node.printLeaf, hkind]
  case trueWord => exact firstLexeme?_truth (.inl rfl) hrest
  case falseWord => exact firstLexeme?_truth (.inr rfl) hrest
  all_goals exact hliteral (by decide)

/-- An operand is printed as something that starts with one. -/
theorem opens_printLeaf (h : t.Found) (hk : t.kind.isOperand) {rest : List Char}
    (hrest : Follows rest) : Opens ((Node.printLeaf t).toList ++ rest) := by
  refine ⟨t.kind, _, h.firstLexeme?_printLeaf hk hrest, ?_⟩
  cases hkind : t.kind <;> rw [hkind] at hk <;> first | contradiction | decide

end Found

end MessageSelector.Token
