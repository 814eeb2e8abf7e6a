import MessageSelector.Proofs.Keywords
import MessageSelector.Proofs.LetterCase

/-!
# Words

A scan never splits a word and never misreads one (`text_words`). Identifiers and keywords reach up
to a character that no identifier has, an identifier has the letters of no keyword of one word
(`IdentText.not_sameLetters`), and `NOT` is a token of its own only where no word behind its blanks
makes a keyword with it (`not_startsWith_of_not`). All of this comes from what the classes in front
of the one that was found have not found in the same place.
-/

namespace MessageSelector

namespace Token

open LexemeClass (keywords table_eq)

/-! ## Kinds of words -/

/-- Whether a token of this kind is a keyword. -/
def Kind.isKeyword : Kind → Bool
  | notBetween | notIn | notLike | isNotNull | isNull | between | inList | like | escape | not
  | and | or | trueWord | falseWord => true
  | _ => false

theorem Kind.exists_mem_keywords {kind : Kind} (h : kind.isKeyword) :
    ∃ lexeme ∈ keywords, lexeme.kind? = some kind := by
  rw [← List.mem_map]
  cases kind <;> first | decide | cases h

/-! ## Words that are found -/

variable {text after : List Char}

/-- A keyword is found with its words and nothing else, and no character of an identifier follows
it. -/
theorem wordsText_of_firstLexeme? {kind : Kind} {word : List Char} {words : List (List Char)}
    (hmem : ⟨some kind, keywordLength? (word :: words)⟩ ∈ keywords)
    (h : firstLexeme? (text ++ after) = some (some kind, text.length)) :
    WordsText (word :: words) text ∧ ∀ c, after.head? = some c → isIdentBody c = false := by
  have htable : ⟨some kind, keywordLength? (word :: words)⟩ ∈ LexemeClass.table := by
    rw [table_eq]
    exact List.mem_cons_of_mem _ (List.mem_append_left _ hmem)
  have hlength := length?_of_firstLexeme? htable h
  obtain ⟨text', rest, hsplit, hlen, htext, hrest⟩ := keywordLength?_split hlength
  obtain ⟨rfl, rfl⟩ := List.append_inj hsplit hlen
  exact ⟨htext, hrest⟩

theorem isIdentBody_after_keyword {kind : Kind} (hkind : kind.isKeyword)
    (h : firstLexeme? (text ++ after) = some (some kind, text.length)) :
    ∀ c, after.head? = some c → isIdentBody c = false := by
  obtain ⟨lexeme, hmem, hk⟩ := Kind.exists_mem_keywords hkind
  obtain ⟨kind', word, words, rfl, -⟩ := eq_keyword_of_mem hmem
  cases hk
  exact (wordsText_of_firstLexeme? hmem h).2

theorem isIdentBody_after_ident
    (h : firstLexeme? (text ++ after) = some (some .ident, text.length)) :
    ∀ c, after.head? = some c → isIdentBody c = false := by
  have htable : ⟨some .ident, identLength?⟩ ∈ LexemeClass.table := by
    rw [table_eq]
    simp [LexemeClass.literals]
  have hlength := @length?_of_firstLexeme? _ ⟨some .ident, identLength?⟩ _ htable h
  obtain ⟨c, body, rest, hsplit, hlen, -, -, hrest⟩ := identLength?_split hlength
  obtain ⟨-, rfl⟩ := List.append_inj hsplit hlen
  exact hrest

/-! ## Identifiers -/

/-- A word is spelled by its letters in any case. -/
theorem wordLength?_of_sameLetters {word : List Char} (hword : ∀ w ∈ word, w ∈ Text.capitals)
    (h : Text.SameLetters text word) : wordLength? word text = some text.length := by
  have hself : ∀ word : List Char, wordLength? word word = some word.length := by
    intro word
    induction word with
    | nil => rfl
    | cons w word ih => rw [wordLength?, if_pos (by simp [isLetter]), ih]; rfl
  rw [← wordLength?_lower hword, h.lower_eq, wordLength?_lower hword, hself, h.length_eq]

theorem IdentText.not_sameLetters (h : IdentText text) :
    ∀ word ∈ singleWords, ¬ Text.SameLetters text word.toList := by
  have hcapitals : ∀ word ∈ singleWords, word.toList ⊆ Text.capitals := by decide
  intro word hword hsame
  exact h.noKeyword word hword (wordLength?_of_sameLetters (hcapitals word hword) hsame)

/-! ## Negations -/

/-- The words that `NOT` makes a keyword with. -/
def negatableWords : List String :=
  ["BETWEEN", "IN", "LIKE"]

/-- Where `NOT` is found, no word behind it makes another keyword of it. -/
theorem not_startsWith_of_not {cs : List Char} {n : Nat}
    (h : firstLexeme? cs = some (some .not, n)) :
    ∀ word ∈ negatableWords, ¬ StartsWith ["NOT".toList, word.toList] cs := by
  -- Ten classes stand in front of that of `NOT`, the keywords that start with it among them.
  have hnone := @length?_eq_none_of_before cs _ _ (LexemeClass.table.take 10)
    (LexemeClass.table.drop 10) (List.take_append_drop 10 _).symm (by decide) h
  have hpair (kind : Kind) (word : String)
      (hmem : LexemeClass.keyword kind ["NOT", word] ∈ LexemeClass.table.take 10)
      (hletters : ∀ w ∈ ["NOT".toList, word.toList], isKeywordWord w) :
      ¬ StartsWith ["NOT".toList, word.toList] cs :=
    (keywordLength?_eq_none_iff hletters).1 (hnone _ hmem)
  refine List.forall_mem_cons.2 ⟨hpair .notBetween _ ?_ (by decide), List.forall_mem_cons.2
    ⟨hpair .notIn _ ?_ (by decide), List.forall_mem_singleton.2
      (hpair .notLike _ ?_ (by decide))⟩⟩ <;>
  simp [LexemeClass.table]

theorem exists_negatableWord {kind : Kind} (h : kind ∈ [Kind.between, .inList, .like]) :
    ∃ word ∈ negatableWords, LexemeClass.keyword kind [word] ∈ keywords ∧
      isKeywordWord word.toList := by
  simp only [List.mem_cons, List.not_mem_nil, or_false] at h
  rcases h with rfl | rfl | rfl
  · exact ⟨"BETWEEN", by simp [negatableWords], by simp [keywords], by decide⟩
  · exact ⟨"IN", by simp [negatableWords], by simp [keywords], by decide⟩
  · exact ⟨"LIKE", by simp [negatableWords], by simp [keywords], by decide⟩

/-- Behind a `NOT` and blanks, no word is found that it would have made a keyword with. -/
theorem not_negatable_of_not {text gap text' after : List Char} {kind : Kind}
    (hnot : firstLexeme? (text ++ (gap ++ (text' ++ after))) = some (some .not, text.length))
    (hgap : ∀ c ∈ gap, Text.isBlank c)
    (hfound : firstLexeme? (text' ++ after) = some (some kind, text'.length)) :
    kind ∉ [Kind.between, .inList, .like] := by
  intro hkind
  obtain ⟨word, hword, hmem, hletters⟩ := exists_negatableWord hkind
  have hmemNot : LexemeClass.keyword .not ["NOT"] ∈ keywords := by simp [keywords]
  obtain ⟨htext, hend⟩ := wordsText_of_firstLexeme? hmemNot hnot
  obtain ⟨htext', hend'⟩ := wordsText_of_firstLexeme? hmem hfound
  -- The word starts with a letter, which could not stand directly behind the keyword.
  have hne : gap ≠ [] := by
    rintro rfl
    obtain ⟨c, rest, rfl, hc⟩ := htext'.head (List.forall_mem_singleton.2 hletters)
    have hbody := hend c rfl
    rw [isIdentBody_of_isAlpha hc] at hbody
    cases hbody
  cases htext with
  | last hlast =>
    exact not_startsWith_of_not hnot word hword
      ⟨text ++ (gap ++ text'), after, by simp, .next hlast hne hgap htext', hend'⟩

end Token

namespace Scan

open Token (isIdentBody singleWords)

/-- **Words are neither split nor misread.** Behind an identifier or a keyword of a scan the text
ends or goes on with a character that no identifier has. An identifier is not equal to a keyword of
one word up to the case of its letters. Where only blanks stand between a `NOT` and another token,
that is not `BETWEEN`, `IN` or `LIKE`. -/
theorem text_words (s : String) : ∀ t ∈ (text s).tokens, ∃ before after,
    s.toList = before ++ (t.text.toList ++ after) ∧ t.offset = before.length ∧
      (t.kind = .ident ∨ t.kind.isKeyword → ∀ c, after.head? = some c → isIdentBody c = false) ∧
      (t.kind = .ident → ∀ word ∈ singleWords, ¬ Text.SameLetters t.text.toList word.toList) ∧
      (t.kind = .not → ∀ u ∈ (text s).tokens, ∀ gap rest, after = gap ++ rest →
        (∀ c ∈ gap, Text.isBlank c) → u.offset = t.stop + gap.length →
          u.kind ∉ [Token.Kind.between, .inList, .like]) := by
  intro t ht
  obtain ⟨before, after, hsplit, hoffset, hfound⟩ := found_of_mem ht
  rw [Nat.zero_add] at hoffset
  refine ⟨before, after, hsplit, hoffset, ?_, fun hk => ?_, ?_⟩
  · rintro (hk | hk)
    · rw [hk] at hfound
      exact Token.isIdentBody_after_ident hfound
    · exact Token.isIdentBody_after_keyword hk hfound
  · exact ((found_of_mem ht).found.identText hk).not_sameLetters
  · intro hk u hu gap rest hafter hgap hnext
    subst hafter
    obtain ⟨before', after', hsplit', hoffset', hfound'⟩ := found_of_mem hu
    rw [hk] at hfound
    have hlength : (before ++ (t.text.toList ++ gap)).length = before'.length := by
      rw [Token.stop, ← String.length_toList] at hnext
      simp only [List.length_append]
      omega
    have hrest : before ++ (t.text.toList ++ gap) ++ rest =
        before' ++ (u.text.toList ++ after') := by
      rw [← hsplit', hsplit]
      simp
    obtain ⟨-, rfl⟩ := List.append_inj hrest hlength
    exact Token.not_negatable_of_not hfound hgap hfound'

/-- An identifier that starts with the letters of `IN`, behind a `NOT` and a blank. -/
theorem text_words_not :
    let s := "x.not IN (NOT in$)"
    let negation : Token := ⟨.not, "NOT", 10⟩
    let name : Token := ⟨.ident, "in$", 14⟩
    negation ∈ (text s).tokens ∧ name ∈ (text s).tokens ∧
      (∀ word ∈ singleWords, ¬ Text.SameLetters name.text.toList word.toList) ∧
      name.kind ∉ [Token.Kind.between, .inList, .like] := by
  intro s negation name
  have htokens : (text s).tokens = [⟨.ident, "x.not", 0⟩, ⟨.inList, "IN", 6⟩,
      ⟨.openParen, "(", 9⟩, negation, name, ⟨.closeParen, ")", 17⟩] := by
    decide +kernel
  have hnegation : negation ∈ (text s).tokens := by simp [htokens]
  have hname : name ∈ (text s).tokens := by simp [htokens]
  obtain ⟨-, -, -, -, -, hletters, -⟩ := text_words s name hname
  obtain ⟨before, after, hsplit, hoffset, -, -, hnext⟩ := text_words s negation hnegation
  have hparts : "x.not IN (".toList ++ ("NOT".toList ++ " in$)".toList) =
      before ++ ("NOT".toList ++ after) := by
    rw [← hsplit]
    decide +kernel
  obtain ⟨-, hrest⟩ := List.append_inj hparts hoffset
  have hafter : after = [' '] ++ "in$)".toList := (List.append_cancel_left hrest).symm
  have hblank : ∀ c ∈ [' '], Text.isBlank c := List.forall_mem_singleton.2 rfl
  have hstop : name.offset = negation.stop + 1 := by decide +kernel
  exact ⟨hnegation, hname, hletters rfl, hnext rfl name hname [' '] _ hafter hblank hstop⟩

end Scan

end MessageSelector
