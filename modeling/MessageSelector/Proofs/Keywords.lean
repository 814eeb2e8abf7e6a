import MessageSelector.Proofs.Relexing

/-!
# Keywords in another layout

A keyword is a sequence of words with blanks between them (`WordsText`), and no character of an
identifier may follow it. Where the blanks behind a token are replaced by others, no keyword appears
that was not there (`WordsText.startsWith`): it would begin with the token, go on with the tokens
behind it, and be spelled by them as it was before.
-/

namespace MessageSelector.Token

open LexemeClass (keywords)

/-! ## Words -/

theorem wordLength?_split {word cs : List Char} {n : Nat} (h : wordLength? word cs = some n) :
    ∃ text rest, cs = text ++ rest ∧ n = text.length ∧
      wordLength? word text = some text.length := by
  induction word generalizing cs n with
  | nil =>
    cases h
    exact ⟨[], cs, rfl, rfl, rfl⟩
  | cons w word ih =>
    cases cs with
    | nil => cases h
    | cons c cs =>
      rw [wordLength?] at h
      split at h
      · next hw =>
        obtain ⟨m, hm, rfl⟩ := Option.map_eq_some_iff.1 h
        obtain ⟨text, rest, rfl, rfl, htext⟩ := ih hm
        exact ⟨c :: text, rest, rfl, rfl, by rw [wordLength?, if_pos hw, htext]; rfl⟩
      · cases h

/-- No letter of a word is a blank. -/
theorem not_isBlank_of_wordLength? {word text : List Char} (hword : isPlainWord word)
    (h : wordLength? word text = some text.length) : ∀ c ∈ text, Text.isBlank c = false := by
  induction text generalizing word with
  | nil => exact List.forall_mem_nil _
  | cons c text ih =>
    cases word with
    | nil => cases h
    | cons w word =>
      rw [isPlainWord, List.all_cons, Bool.and_eq_true] at hword
      rw [wordLength?] at h
      split at h
      · next hw =>
        obtain ⟨m, hm, hlength⟩ := Option.map_eq_some_iff.1 h
        have hblanks : blanks.all (!isLetter w ·) :=
          List.all_eq_true.2 fun b hb => List.all_eq_true.1 hword.1 b
            (List.mem_cons_of_mem _ (List.mem_cons_of_mem _ hb))
        exact List.forall_mem_cons.2
          ⟨not_isBlank_of hblanks hw, ih hword.2 (by rw [hm]; simpa using hlength)⟩
      · cases h

/-- Whether a word is plain and starts with a letter that has no third form. -/
def isKeywordWord (word : List Char) : Bool :=
  isPlainWord word &&
    match word with
    | [] => false
    | w :: _ => w ≠ 'K' && w ≠ 'S' && w.isAlpha && w.toLower.isAlpha

theorem isPlainWord_of_isKeywordWord {word : List Char} (h : isKeywordWord word) :
    isPlainWord word :=
  (Bool.and_eq_true_iff.1 h).1

/-- A word of a keyword starts with a letter. -/
theorem head_of_wordLength? {word text : List Char} (hword : isKeywordWord word)
    (h : wordLength? word text = some text.length) : ∃ c rest, text = c :: rest ∧ c.isAlpha := by
  unfold isKeywordWord at hword
  cases word with
  | nil => simp at hword
  | cons w word =>
    cases text with
    | nil => cases h
    | cons c text =>
      refine ⟨c, text, rfl, ?_⟩
      rw [wordLength?] at h
      split at h
      · next hw =>
        simp only [Bool.and_eq_true, decide_eq_true_eq] at hword
        obtain ⟨-, ⟨⟨hkelvin, hlong⟩, hupper⟩, hlower⟩ := hword
        simp only [isLetter, Bool.or_eq_true, Bool.and_eq_true, decide_eq_true_eq, hkelvin, hlong,
          false_and, or_false] at hw
        rcases hw with rfl | rfl
        · exact hupper
        · exact hlower
      · cases h

theorem isIdentBody_of_isAlpha {c : Char} (h : c.isAlpha) : isIdentBody c :=
  isIdentBody_of_isIdentStart (by simp [isIdentStart, h])

/-! ## Texts of keywords -/

/-- The text of words with blanks between them. -/
inductive WordsText : List (List Char) → List Char → Prop
  | last {word text : List Char} : wordLength? word text = some text.length → WordsText [word] text
  | next {word w text gap rest : List Char} {words : List (List Char)} :
    wordLength? word text = some text.length → gap ≠ [] → (∀ c ∈ gap, Text.isBlank c) →
      WordsText (w :: words) rest → WordsText (word :: w :: words) (text ++ (gap ++ rest))

namespace WordsText

variable {words : List (List Char)} {text : List Char}

theorem head (h : WordsText words text) (hwords : ∀ word ∈ words, isKeywordWord word) :
    ∃ c rest, text = c :: rest ∧ c.isAlpha := by
  cases h with
  | last hlast => exact head_of_wordLength? (hwords _ List.mem_cons_self) hlast
  | next hfirst _ _ _ =>
    obtain ⟨c, rest, rfl, hc⟩ := head_of_wordLength? (hwords _ List.mem_cons_self) hfirst
    exact ⟨c, _, rfl, hc⟩

theorem not_isBlank_head (h : WordsText words text) (hwords : ∀ word ∈ words, isKeywordWord word)
    (rest : List Char) : ∀ c, (text ++ rest).head? = some c → Text.isBlank c = false := by
  obtain ⟨c, tail, rfl, hc⟩ := h.head hwords
  rintro _ ⟨⟩
  exact not_isBlank_of_isIdentBody (isIdentBody_of_isAlpha hc)

theorem not_isBlank_last (h : WordsText words text) (hwords : ∀ word ∈ words, isKeywordWord word) :
    ∀ c, text.getLast? = some c → Text.isBlank c = false := by
  induction h with
  | last hlast =>
    intro c hc
    have hplain := isPlainWord_of_isKeywordWord (hwords _ List.mem_cons_self)
    exact not_isBlank_of_wordLength? hplain hlast c (List.mem_of_getLast? hc)
  | next _ _ _ hrest ih =>
    have hwords' := (List.forall_mem_cons.1 hwords).2
    obtain ⟨c, tail, rfl, -⟩ := hrest.head hwords'
    rw [List.getLast?_append_of_ne_nil _ (by simp), List.getLast?_append_of_ne_nil _ (by simp)]
    exact ih hwords'

/-- Words are found in front of anything. -/
theorem wordsLength? (h : WordsText words text) (hwords : ∀ word ∈ words, isKeywordWord word)
    (rest : List Char) : Token.wordsLength? words (text ++ rest) = some text.length := by
  induction h with
  | last hlast => exact wordLength?_append_of_some hlast
  | @next word w text gap tail words hfirst hne hgap htail ih =>
    have hwords' := (List.forall_mem_cons.1 hwords).2
    have hfirst' := @wordLength?_append_of_some _ _ (gap ++ (tail ++ rest)) _ hfirst
    have hrun := someRunLength?_append hne hgap (htail.not_isBlank_head hwords' rest)
    rw [List.append_assoc, List.append_assoc, wordsLength?_cons hfirst', hrun, Option.bind_some,
      List.drop_left, ih hwords']
    simp [Nat.add_assoc]

end WordsText

theorem wordsLength?_split {word : List Char} {words : List (List Char)} {cs : List Char} {n : Nat}
    (h : wordsLength? (word :: words) cs = some n) :
    ∃ text rest, cs = text ++ rest ∧ n = text.length ∧ WordsText (word :: words) text := by
  induction words generalizing word cs n with
  | nil =>
    obtain ⟨text, rest, hcs, hn, htext⟩ := wordLength?_split h
    exact ⟨text, rest, hcs, hn, .last htext⟩
  | cons w words ih =>
    have hword : ∃ m, wordLength? word cs = some m := by
      rw [wordsLength?.eq_3 _ _ _ (List.cons_ne_nil _ _)] at h
      obtain ⟨m, hm, -⟩ := Option.bind_eq_some_iff.1 h
      exact ⟨m, hm⟩
    obtain ⟨m, hm⟩ := hword
    obtain ⟨text, rest, rfl, rfl, htext⟩ := wordLength?_split hm
    rw [wordsLength?_cons hm] at h
    obtain ⟨blanks, hblanks, h⟩ := Option.bind_eq_some_iff.1 h
    obtain ⟨more, hmore, rfl⟩ := Option.map_eq_some_iff.1 h
    obtain ⟨gap, rest, rfl, rfl, hne, hgap, -⟩ := someRunLength?_split hblanks
    rw [List.drop_left] at hmore
    obtain ⟨tail, rest, rfl, rfl, htail⟩ := ih hmore
    exact ⟨text ++ (gap ++ tail), rest, by simp, by simp [Nat.add_assoc],
      .next htext hne hgap htail⟩

/-- The text starts with words that no character of an identifier follows. -/
def StartsWith (words : List (List Char)) (cs : List Char) : Prop :=
  ∃ text rest, cs = text ++ rest ∧ WordsText words text ∧
    ∀ c, rest.head? = some c → isIdentBody c = false

theorem keywordLength?_split {word : List Char} {words : List (List Char)} {cs : List Char}
    {n : Nat} (h : keywordLength? (word :: words) cs = some n) :
    ∃ text rest, cs = text ++ rest ∧ n = text.length ∧ WordsText (word :: words) text ∧
      ∀ c, rest.head? = some c → isIdentBody c = false := by
  obtain ⟨m, hm, hend⟩ := Option.bind_eq_some_iff.1 h
  obtain ⟨text, rest, rfl, rfl, htext⟩ := wordsLength?_split hm
  rw [List.drop_left] at hend
  cases rest with
  | nil =>
    cases hend
    exact ⟨text, [], rfl, rfl, htext, by simp⟩
  | cons c rest =>
    dsimp only at hend
    split at hend
    · cases hend
    · next hc =>
      cases hend
      refine ⟨text, c :: rest, rfl, rfl, htext, ?_⟩
      rintro _ ⟨⟩
      simpa using hc

theorem WordsText.keywordLength? {words : List (List Char)} {text rest : List Char}
    (h : WordsText words text) (hwords : ∀ word ∈ words, isKeywordWord word)
    (hrest : ∀ c, rest.head? = some c → isIdentBody c = false) :
    Token.keywordLength? words (text ++ rest) = some text.length := by
  rw [Token.keywordLength?, h.wordsLength? hwords, Option.bind_some, List.drop_left]
  cases rest with
  | nil => rfl
  | cons c rest => simp [hrest c rfl]

theorem keywordLength?_eq_none_iff {word : List Char} {words : List (List Char)} {cs : List Char}
    (hwords : ∀ w ∈ word :: words, isKeywordWord w) :
    keywordLength? (word :: words) cs = none ↔ ¬ StartsWith (word :: words) cs := by
  constructor
  · rintro hnone ⟨text, rest, rfl, htext, hrest⟩
    rw [htext.keywordLength? hwords hrest] at hnone
    cases hnone
  · intro h
    cases hfound : keywordLength? (word :: words) cs with
    | none => rfl
    | some n =>
      obtain ⟨text, rest, hcs, -, htext, hrest⟩ := keywordLength?_split hfound
      exact absurd ⟨text, rest, hcs, htext, hrest⟩ h

/-- Keywords are made of words that start with a letter. -/
theorem eq_keyword_of_mem {lexeme : LexemeClass} (h : lexeme ∈ keywords) :
    ∃ kind word words, lexeme = ⟨some kind, keywordLength? (word :: words)⟩ ∧
      ∀ w ∈ word :: words, isKeywordWord w := by
  revert lexeme
  simp only [keywords, LexemeClass.keyword, List.forall_mem_cons]
  refine ⟨?_, ?_, ?_, ?_, ?_, ?_, ?_, ?_, ?_, ?_, ?_, ?_, ?_, ?_, List.forall_mem_nil _⟩ <;>
    exact ⟨_, _, _, rfl, by decide⟩

/-! ## Another layout -/

/-- Keywords behind the blanks at the start of the new text are behind blanks at the start of the
old one. -/
def KeepsKeywords (new old : List Char) : Prop :=
  ∀ words gap cs, (∀ word ∈ words, isKeywordWord word) → new = gap ++ cs →
    (∀ c ∈ gap, Text.isBlank c) → StartsWith words cs →
      ∃ gap' cs', old = gap' ++ cs' ∧ (∀ c ∈ gap', Text.isBlank c) ∧ StartsWith words cs'

section Relaid

variable {new old start : List Char} (hnew : ∀ c, new.head? = some c → Text.isBlank c)
  (hold : ∀ c, old.head? = some c → isIdentBody c = false) (hkeeps : KeepsKeywords new old)

include hnew in
/-- In front of blanks, what holds no blank is a start of what stands there. -/
theorem append_split {text rest : List Char} (htext : ∀ c ∈ text, Text.isBlank c = false)
    (h : start ++ new = text ++ rest) : ∃ more, start = text ++ more ∧ rest = more ++ new := by
  rcases List.append_eq_append_iff.1 h with ⟨more, rfl, hmore⟩ | hmore
  · cases more with
    | nil => exact ⟨[], by simp, by simpa using hmore.symm⟩
    | cons c more =>
      have hblank := hnew c (by rw [hmore]; rfl)
      rw [htext c (by simp)] at hblank
      cases hblank
  · exact hmore

/-- Blanks end in front of what ends with no blank. -/
theorem append_split_gap {gap rest : List Char} (hne : start ≠ [])
    (hstart : ∀ c, start.getLast? = some c → Text.isBlank c = false)
    (hgap : ∀ c ∈ gap, Text.isBlank c) (h : start ++ new = gap ++ rest) :
    ∃ more, start = gap ++ more ∧ rest = more ++ new := by
  rcases List.append_eq_append_iff.1 h with ⟨more, rfl, -⟩ | hmore
  · have hlast := hstart _ (List.getLast?_eq_some_getLast hne)
    rw [hgap _ (List.mem_append_left _ (List.getLast_mem hne))] at hlast
    cases hlast
  · exact hmore

include hnew hold hkeeps in
/-- A keyword at the start of a token, or inside it, was there before its blanks were replaced. -/
theorem WordsText.startsWith {words : List (List Char)} {text rest : List Char}
    (h : WordsText words text) (hwords : ∀ word ∈ words, isKeywordWord word)
    (hstart : ∀ c, start.getLast? = some c → Text.isBlank c = false)
    (hsplit : start ++ new = text ++ rest)
    (hrest : ∀ c, rest.head? = some c → isIdentBody c = false) :
    StartsWith words (start ++ old) := by
  have hplain := fun word hword => isPlainWord_of_isKeywordWord (hwords word hword)
  induction h generalizing start with
  | @last word text hlast =>
    obtain ⟨more, rfl, rfl⟩ :=
      append_split hnew (not_isBlank_of_wordLength? (hplain _ List.mem_cons_self) hlast) hsplit
    refine ⟨text, more ++ old, List.append_assoc .., .last hlast, ?_⟩
    cases more with
    | nil => exact hold
    | cons c more => exact hrest
  | @next word w text gap tail words hfirst hne hgap htail ih =>
    have hwords' := (List.forall_mem_cons.1 hwords).2
    rw [List.append_assoc] at hsplit
    obtain ⟨more, rfl, hmore⟩ :=
      append_split hnew (not_isBlank_of_wordLength? (hplain _ List.mem_cons_self) hfirst) hsplit
    rw [List.append_assoc] at hmore
    by_cases hend : more = []
    · -- The token ends with this word, so the next ones are looked for behind its blanks.
      subst hend
      obtain ⟨gap', _, rfl, hgap', text', rest', rfl, htext', hrest'⟩ :=
        hkeeps (w :: words) gap (tail ++ rest) hwords' hmore.symm hgap
          ⟨tail, rest, rfl, htail, hrest⟩
      have hne' : gap' ≠ [] := by
        rintro rfl
        obtain ⟨c, _, rfl, hc⟩ := htext'.head hwords'
        have hbody := hold c rfl
        rw [isIdentBody_of_isAlpha hc] at hbody
        cases hbody
      exact ⟨text ++ (gap' ++ text'), rest', by simp, .next hfirst hne' hgap' htext', hrest'⟩
    · have hlast : ∀ c, more.getLast? = some c → Text.isBlank c = false := by
        intro c hc
        apply hstart
        rwa [List.getLast?_append_of_ne_nil _ hend]
      obtain ⟨more', rfl, hmore'⟩ := append_split_gap hend hlast hgap hmore.symm
      have hlast' : ∀ c, more'.getLast? = some c → Text.isBlank c = false := by
        intro c hc
        apply hlast
        rw [List.getLast?_append, hc]
        rfl
      obtain ⟨text', rest', hsplit', htext', hrest'⟩ := ih hwords' hlast' hmore'.symm
        (fun word hword => hplain word (List.mem_cons_of_mem _ hword))
      exact ⟨text ++ (gap ++ text'), rest', by simp [hsplit'], .next hfirst hne hgap htext', hrest'⟩

end Relaid

end MessageSelector.Token
