import MessageSelector.Proofs.Canonical
import MessageSelector.Proofs.Keywords
import MessageSelector.Proofs.Scanning

/-!
# Layout

The blanks between the tokens of a text do not matter (`Relaid`, `text_relaid`). A token is found
again wherever a blank or nothing follows it (`firstLexeme?_relaid`): literals and symbols end
there, and a keyword that could be made of the token and the tokens behind it would have been found
in the text they come from.
-/

namespace MessageSelector

namespace Token

open LexemeClass (keywords symbols literals find? table_eq)

/-! ## Starts of tokens -/

/-- The classes in front of the literals. -/
def LexemeClass.front : List LexemeClass :=
  ⟨none, someRunLength? Text.isBlank⟩ :: (keywords ++ symbols)

theorem table_eq_front : LexemeClass.table = LexemeClass.front ++ literals :=
  rfl

/-- A token starts with no blank, whatever stands behind it. -/
theorem not_isBlank_of_firstLexeme? {text old : List Char} {kind : Kind} {n : Nat}
    (h : firstLexeme? (text ++ old) = some (some kind, n)) (hne : text ≠ []) (rest : List Char) :
    ∀ c, (text ++ rest).head? = some c → Text.isBlank c = false := by
  have hnone := @length?_eq_none_of_before _ (some kind) n [⟨none, someRunLength? Text.isBlank⟩] _
    table_eq (List.forall_mem_singleton.2 nofun) h
  obtain ⟨c, body, rfl⟩ := List.exists_cons_of_ne_nil hne
  have hrun : someRunLength? Text.isBlank (c :: body ++ old) = none := hnone _ List.mem_cons_self
  rw [someRunLength?_eq_none_iff] at hrun
  exact hrun

/-- Where the blanks in front of something else end. -/
theorem append_inj_of_isBlank {gap gap' cs cs' : List Char} (hgap : ∀ c ∈ gap, Text.isBlank c)
    (hgap' : ∀ c ∈ gap', Text.isBlank c) (hcs : ∀ c, cs.head? = some c → Text.isBlank c = false)
    (hcs' : ∀ c, cs'.head? = some c → Text.isBlank c = false) (h : gap ++ cs = gap' ++ cs') :
    gap = gap' ∧ cs = cs' := by
  have hlength := runLength_append hgap hcs
  rw [h, runLength_append hgap' hcs'] at hlength
  exact List.append_inj h hlength.symm

/-- A token that starts with a letter is a keyword or an identifier, so it ends with no blank, and
no character of an identifier follows it. -/
theorem ends_of_isAlpha {c : Char} {body rest : List Char} {kind : Kind} (hc : c.isAlpha)
    (h : firstLexeme? (c :: body ++ rest) = some (some kind, (c :: body).length)) :
    (∀ d, (c :: body).getLast? = some d → Text.isBlank d = false) ∧
      ∀ d, rest.head? = some d → isIdentBody d = false := by
  have hstart : isIdentStart c := by simp [isIdentStart, hc]
  obtain ⟨lexeme, hmem, hfound⟩ := List.exists_of_findSome?_eq_some h
  obtain ⟨n, hlength, heq⟩ := Option.map_eq_some_iff.1 hfound
  obtain ⟨hkind, rfl⟩ := Prod.mk.inj heq
  have hmem' : lexeme = ⟨none, someRunLength? Text.isBlank⟩ ∨ lexeme ∈ keywords ∨
      lexeme ∈ symbols ∨ lexeme ∈ literals.take 4 ∨ lexeme = ⟨some .ident, identLength?⟩ := by
    simpa [table_eq, literals, or_assoc] using hmem
  rcases hmem' with rfl | hkeyword | hsymbol | hliteral | rfl
  · cases hkind
  · obtain ⟨kind, word, words, rfl, hwords⟩ := eq_keyword_of_mem hkeyword
    obtain ⟨text, rest', hsplit, hlen, htext, hrest⟩ := keywordLength?_split hlength
    obtain ⟨rfl, rfl⟩ := List.append_inj hsplit hlen
    exact ⟨htext.not_isBlank_last hwords, hrest⟩
  · rw [List.cons_append, symbols_none (starts_of_isIdentStart hstart).1 _ _ hsymbol] at hlength
    cases hlength
  · rw [List.cons_append, literals_none hstart _ _ hliteral] at hlength
    cases hlength
  · have hident : identLength? (c :: body ++ rest) = some (c :: body).length := hlength
    obtain ⟨c', body', rest', hsplit, hlen, hc', hbody, hrest⟩ := identLength?_split hident
    obtain ⟨htext, rfl⟩ := List.append_inj hsplit hlen
    have hall : ∀ d ∈ c' :: body', isIdentBody d :=
      List.forall_mem_cons.2 ⟨isIdentBody_of_isIdentStart hc', hbody⟩
    rw [htext]
    exact ⟨fun d hd => not_isBlank_of_isIdentBody (hall d (List.mem_of_getLast? hd)), hrest⟩

/-- Symbols are spelled without blanks. -/
theorem eq_symbol_of_mem {lexeme : LexemeClass} (h : lexeme ∈ symbols) :
    ∃ kind : Kind, lexeme = LexemeClass.symbol kind ∧
      ∀ c ∈ kind.spelling.toList, Text.isBlank c = false := by
  obtain ⟨kind, hmem, rfl⟩ := List.mem_map.1 h
  have hplain : kind.spelling.toList.all (!Text.isBlank ·) := by
    clear h
    revert kind
    decide
  exact ⟨kind, rfl, fun c hc => by simpa using List.all_eq_true.1 hplain c hc⟩

theorem symbolLength?_eq_some_iff {symbol cs : List Char} {n : Nat} :
    symbolLength? symbol cs = some n ↔ (∃ rest, cs = symbol ++ rest) ∧ n = symbol.length := by
  unfold symbolLength?
  split
  · next h =>
    obtain ⟨rest, rfl⟩ := List.isPrefixOf_iff_prefix.1 h
    simp [eq_comm]
  · next h =>
    simp only [reduceCtorEq, false_iff]
    rintro ⟨⟨rest, rfl⟩, -⟩
    exact h (List.isPrefixOf_iff_prefix.2 (List.prefix_append _ _))

/-! ## Tokens in front of other blanks -/

section Relaid

variable {text new old : List Char} {kind : Kind}
  (hfound : firstLexeme? (text ++ old) = some (some kind, text.length)) (hne : text ≠ [])
  (hnew : ∀ c, new.head? = some c → Text.isBlank c) (hkeeps : KeepsKeywords new old)

include hfound hne hnew hkeeps

/-- A keyword that starts with a token was there before its blanks were replaced. -/
theorem StartsWith.of_relaid {words : List (List Char)}
    (hwords : ∀ word ∈ words, isKeywordWord word) (h : StartsWith words (text ++ new)) :
    StartsWith words (text ++ old) := by
  obtain ⟨spelled, rest, hsplit, hspelled, hrest⟩ := h
  obtain ⟨c, body, rfl⟩ := List.exists_cons_of_ne_nil hne
  obtain ⟨c', tail, rfl, hc⟩ := hspelled.head hwords
  obtain ⟨rfl, -⟩ := List.cons.inj hsplit
  obtain ⟨hlast, hold⟩ := ends_of_isAlpha hc hfound
  exact hspelled.startsWith hnew hold hkeeps hwords hlast hsplit hrest

/-- No blank, keyword or symbol appears at the start of a token. -/
theorem length?_eq_none_of_relaid {lexeme : LexemeClass} (hmem : lexeme ∈ LexemeClass.front)
    (h : lexeme.length? (text ++ old) = none) : lexeme.length? (text ++ new) = none := by
  rcases List.mem_cons.1 hmem with rfl | hmem
  · obtain ⟨c, body, rfl⟩ := List.exists_cons_of_ne_nil hne
    change someRunLength? _ _ = _ at h ⊢
    rw [someRunLength?_eq_none_iff] at h ⊢
    exact h
  · rcases List.mem_append.1 hmem with hkeyword | hsymbol
    · obtain ⟨_, word, words, rfl, hwords⟩ := eq_keyword_of_mem hkeyword
      rw [keywordLength?_eq_none_iff hwords] at h ⊢
      exact mt (StartsWith.of_relaid hfound hne hnew hkeeps hwords) h
    · obtain ⟨kind', rfl, hplain⟩ := eq_symbol_of_mem hsymbol
      refine Option.eq_none_iff_forall_ne_some.2 fun n hn => ?_
      obtain ⟨⟨rest, hsplit⟩, rfl⟩ := symbolLength?_eq_some_iff.1 hn
      obtain ⟨more, rfl, -⟩ := append_split hnew hplain hsplit
      have hsome : symbolLength? kind'.spelling.toList (kind'.spelling.toList ++ more ++ old) =
          some kind'.spelling.toList.length :=
        symbolLength?_eq_some_iff.2 ⟨⟨more ++ old, List.append_assoc ..⟩, rfl⟩
      exact absurd (h.symm.trans hsome) nofun

omit hfound hne hkeeps in
/-- A keyword or a symbol that makes up a token is there in front of a blank as well. -/
theorem length?_eq_some_of_relaid {lexeme : LexemeClass} (hmem : lexeme ∈ keywords ++ symbols)
    (h : lexeme.length? (text ++ old) = some text.length) :
    lexeme.length? (text ++ new) = some text.length := by
  rcases List.mem_append.1 hmem with hkeyword | hsymbol
  · obtain ⟨_, word, words, rfl, hwords⟩ := eq_keyword_of_mem hkeyword
    obtain ⟨spelled, rest, hsplit, hlength, hspelled, -⟩ := keywordLength?_split h
    obtain ⟨rfl, rfl⟩ := List.append_inj hsplit hlength
    exact hspelled.keywordLength? hwords
      ((Ends.of_isBlank hnew).head (p := isIdentBody) (by decide))
  · obtain ⟨kind', rfl, -⟩ := eq_symbol_of_mem hsymbol
    obtain ⟨⟨rest, hsplit⟩, hlength⟩ := symbolLength?_eq_some_iff.1 h
    obtain ⟨rfl, rfl⟩ := List.append_inj hsplit hlength
    exact symbolLength?_eq_some_iff.2 ⟨⟨new, rfl⟩, rfl⟩

/-- A keyword or symbol is found again in front of a blank or nothing. -/
theorem firstLexeme?_relaid_of_front
    (hfront : LexemeClass.front.findSome? (find? (text ++ old)) = some (some kind, text.length)) :
    firstLexeme? (text ++ new) = some (some kind, text.length) := by
  obtain ⟨before, lexeme, after, hsplit, hlexeme, hbefore⟩ := List.findSome?_eq_some_iff.1 hfront
  obtain ⟨n, hlength, heq⟩ := Option.map_eq_some_iff.1 hlexeme
  obtain ⟨hkind, rfl⟩ := Prod.mk.inj heq
  have hmem : lexeme ∈ keywords ++ symbols := by
    have hmem : lexeme ∈ LexemeClass.front := by simp [hsplit]
    refine (List.mem_cons.1 hmem).resolve_left ?_
    rintro rfl
    cases hkind
  have htable : LexemeClass.table = before ++ lexeme :: (after ++ literals) := by
    rw [table_eq_front, hsplit, List.append_assoc, List.cons_append]
  rw [← hkind]
  have hlength' := length?_eq_some_of_relaid hnew hmem hlength
  refine firstLexeme?_of_before htable (fun l hl => ?_) hlength'
  have hl' : l ∈ LexemeClass.front := by
    rw [hsplit]
    exact List.mem_append_left _ hl
  have hnone := Option.map_eq_none_iff.1 (hbefore l hl)
  exact length?_eq_none_of_relaid hfound hne hnew hkeeps hl' hnone

/-- A token is found again in front of a blank or nothing. -/
theorem firstLexeme?_relaid : firstLexeme? (text ++ new) = some (some kind, text.length) := by
  have hor : (LexemeClass.front.findSome? (find? (text ++ old))).or
      (literals.findSome? (find? (text ++ old))) = some (some kind, text.length) := by
    rw [← List.findSome?_append]
    exact hfound
  cases hfront : LexemeClass.front.findSome? (find? (text ++ old)) with
  | some first =>
    rw [hfront, Option.some_or] at hor
    exact firstLexeme?_relaid_of_front hfound hne hnew hkeeps (hfront.trans hor)
  | none =>
    -- A literal is known by its text, so only what comes before the literals has to be ruled out.
    rw [hfront, Option.none_or] at hor
    obtain ⟨lexeme, hmem, hlexeme⟩ := List.exists_of_findSome?_eq_some hor
    obtain ⟨n, -, heq⟩ := Option.map_eq_some_iff.1 hlexeme
    have hliteral : some kind ∈ literals.map LexemeClass.kind? :=
      List.mem_map.2 ⟨lexeme, hmem, (Prod.mk.inj heq).1⟩
    have htoken : Found ⟨kind, String.ofList text, 0⟩ :=
      ⟨⟨text ++ old, text.length, hfound, by simp⟩, by simpa using hne⟩
    have hagain := htoken.firstLexeme?_literal hliteral (Ends.of_isBlank hnew)
    rw [String.toList_ofList] at hagain
    refine hagain fun _ l hl => ?_
    have hl : l ∈ LexemeClass.front := List.mem_cons_of_mem _ (List.mem_append_left _ hl)
    have hnone := List.findSome?_eq_none_iff.1 hfront l hl
    exact length?_eq_none_of_relaid hfound hne hnew hkeeps hl (Option.map_eq_none_iff.1 hnone)

end Relaid

end Token

open Token (firstLexeme?)

/-! ## Texts of the same tokens -/

/-- The second text is scanned as the words, and the first one has the same tokens between other
blanks, at least one in front of every token but the first. -/
inductive Relaid : List Char → List Char → List (Token.Kind × String) → Prop
  | last {gap gap' : List Char} : (∀ c ∈ gap, Text.isBlank c) → (∀ c ∈ gap', Text.isBlank c) →
    Relaid gap gap' []
  | word {gap gap' new old : List Char} {kind : Token.Kind} {text : String}
    {words : List (Token.Kind × String)} : (∀ c ∈ gap, Text.isBlank c) →
    (∀ c ∈ gap', Text.isBlank c) →
    firstLexeme? (text.toList ++ old) = some (some kind, text.toList.length) →
    text.toList ≠ [] → (∀ offset, Token.Valued ⟨kind, text, offset⟩) →
    (∀ c, new.head? = some c → Text.isBlank c) → Relaid new old words →
      Relaid (gap ++ (text.toList ++ new)) (gap' ++ (text.toList ++ old)) ((kind, text) :: words)

/-- Blanks in front of anything else. -/
theorem Scans.gap {gap cs : List Char} {words : List (Token.Kind × String)}
    (hgap : ∀ c ∈ gap, Text.isBlank c) (hcs : ∀ c, cs.head? = some c → Text.isBlank c = false)
    (h : Scans cs words) : Scans (gap ++ cs) words := by
  by_cases hne : gap = []
  · rwa [hne, List.nil_append]
  · exact .blanks hne hgap hcs h

namespace Relaid

variable {new old : List Char} {words : List (Token.Kind × String)}

/-- More blanks in front of the text that was scanned. -/
theorem blanks {gap : List Char} (hgap : ∀ c ∈ gap, Text.isBlank c) (h : Relaid new old words) :
    Relaid new (gap ++ old) words := by
  cases h with
  | last hnew hold => exact .last hnew (List.forall_mem_append.2 ⟨hgap, hold⟩)
  | word hnew hold hfound hne hvalued hhead h =>
    rw [← List.append_assoc gap]
    exact .word hnew (List.forall_mem_append.2 ⟨hgap, hold⟩) hfound hne hvalued hhead h

/-- No keyword appears behind the blanks at the start of the text. -/
theorem keeps (h : Relaid new old words) : Token.KeepsKeywords new old := by
  induction h with
  | last hgap _ =>
    rintro words gap cs hwords rfl - ⟨text, rest, rfl, htext, -⟩
    -- A keyword starts with a letter, but there are only blanks.
    obtain ⟨c, tail, rfl, -⟩ := htext.head hwords
    have hblank := htext.not_isBlank_head hwords rest c rfl
    rw [hgap c (by simp)] at hblank
    cases hblank
  | @word front front' new old kind text words hfront hfront' hfound hne _ hnew _ ih =>
    intro keyword gap cs hwords hsplit hgap hstarts
    have hcs : ∀ c, cs.head? = some c → Text.isBlank c = false := by
      obtain ⟨spelled, rest, rfl, hspelled, -⟩ := hstarts
      exact hspelled.not_isBlank_head hwords rest
    have htext := Token.not_isBlank_of_firstLexeme? hfound hne new
    obtain ⟨rfl, rfl⟩ := Token.append_inj_of_isBlank hfront hgap htext hcs hsplit
    exact ⟨front', _, rfl, hfront', hstarts.of_relaid hfound hne hnew ih hwords⟩

/-- The words are scanned in the other layout. -/
theorem scans (h : Relaid new old words) : Scans new words := by
  induction h with
  | last hgap _ =>
    have h := Scans.gap hgap (by simp) .done
    rwa [List.append_nil] at h
  | @word gap gap' new old kind text words hgap _ hfound hne hvalued hnew h ih =>
    have hagain := Token.firstLexeme?_relaid hfound hne hnew h.keeps
    exact .gap hgap (Token.not_isBlank_of_firstLexeme? hfound hne new) (.word hagain hne hvalued ih)

end Relaid

/-- The words of a text between other blanks. -/
theorem Scans.relaid {cs : List Char} {words : List (Token.Kind × String)} (h : Scans cs words)
    {pieces : List Scan.Piece} {last : List Char}
    (hwords : pieces.map (fun p => p.token.word) = words)
    (hgap : ∀ p ∈ pieces, ∀ c ∈ p.gap, Text.isBlank c) (hne : ∀ p ∈ pieces.tail, p.gap ≠ [])
    (hlast : ∀ c ∈ last, Text.isBlank c) :
    Relaid (pieces.flatMap Scan.Piece.text ++ last) cs words := by
  induction h generalizing pieces with
  | done =>
    cases List.map_eq_nil_iff.1 hwords
    exact .last hlast (List.forall_mem_nil _)
  | blanks _ hblanks _ _ ih => exact (ih hwords hgap hne).blanks hblanks
  | @word kind text rest words hfound hne' hvalued _ ih =>
    obtain ⟨p, pieces, rfl, hp, hpieces⟩ := List.map_eq_cons_iff.1 hwords
    obtain ⟨hpgap, hgap⟩ := List.forall_mem_cons.1 hgap
    have htext : p.token.text = text := (Prod.mk.inj hp).2
    have hnew : ∀ c, (pieces.flatMap Scan.Piece.text ++ last).head? = some c → Text.isBlank c := by
      intro c hc
      cases pieces with
      | nil => exact hlast c (List.mem_of_head? hc)
      | cons q pieces =>
        have hq : q.gap.head? = some c := by
          rw [← hc, List.flatMap_cons, Scan.Piece.text, List.append_assoc, List.append_assoc]
          exact (List.head?_append_of_ne_nil _ (hne q List.mem_cons_self)).symm
        exact hgap q List.mem_cons_self c (List.mem_of_head? hq)
    have h := ih hpieces hgap (fun q hq => hne q (List.mem_of_mem_tail hq))
    have hword := @Relaid.word p.gap [] _ _ _ _ _ hpgap (List.forall_mem_nil _) hfound hne' hvalued
      hnew h
    simpa [Scan.Piece.text, htext] using hword

/-! ## Whole scans -/

namespace Scan

/-- A scan without a residue finds the words of the text. -/
theorem scans_of_residue {offset : Nat} {cs : List Char} (h : (textFrom offset cs).residue = "") :
    Scans cs ((textFrom offset cs).tokens.map Token.word) := by
  have hnil {cs : List Char} (hempty : String.ofList cs = "") : cs = [] := by
    simpa using congrArg String.toList hempty
  fun_induction textFrom offset cs with
  | case1 offset => exact .done
  | case2 offset c rest hnone => cases hnil h
  | case3 offset c rest kind? hfound => cases hnil h
  | case4 offset c rest n hfound ih =>
    obtain ⟨hgap, hrest⟩ := Token.isBlank_of_firstLexeme? hfound
    rw [← List.take_append_drop (n + 1) (c :: rest)]
    exact .blanks (by simp) hgap hrest (ih h)
  | case5 offset c rest kind n hfound token hstop => cases hnil h
  | case6 offset c rest kind n hfound token hstop ih =>
    have hle := (Token.advances_firstLexeme? hfound).2
    have hlength : (c :: rest.take n).length = n + 1 := List.length_take_of_le hle
    have hvalued : token.Valued := eq_false_of_ne_true hstop
    have hword := @Scans.word kind token.text (rest.drop n)
    simp only [token, String.toList_ofList, List.cons_append, List.take_append_drop,
      hlength] at hword
    exact hword hfound (List.cons_ne_nil _ _) (fun _ => hvalued) (ih h)

/-- **Layout does not matter.** Take the tokens of a text that is scanned without a residue and put
any blanks in front of them and behind the last one, at least one between two tokens. This text is
scanned without a residue too, as tokens of the same kinds and texts in the same order. -/
theorem text_relaid {s : String} (h : (text s).isComplete) {pieces : List Piece} {last : List Char}
    (htokens : pieces.map Piece.token = (text s).tokens)
    (hgap : ∀ p ∈ pieces, ∀ c ∈ p.gap, Text.isBlank c) (hne : ∀ p ∈ pieces.tail, p.gap ≠ [])
    (hlast : ∀ c ∈ last, Text.isBlank c) :
    (text (String.ofList (pieces.flatMap Piece.text ++ last))).isComplete ∧
      (text (String.ofList (pieces.flatMap Piece.text ++ last))).tokens.map Token.word =
        (text s).tokens.map Token.word := by
  have hscans : Scans s.toList ((text s).tokens.map Token.word) :=
    scans_of_residue (String.isEmpty_iff.1 h)
  have hwords : pieces.map (fun p => p.token.word) = (text s).tokens.map Token.word := by
    rw [← htokens, List.map_map]
    rfl
  have hrelaid := (hscans.relaid hwords hgap hne hlast).scans
  obtain ⟨hresidue, htext⟩ := hrelaid.textFrom 0
  rw [text, String.toList_ofList]
  exact ⟨String.isEmpty_iff.2 hresidue, htext⟩

theorem text_relaid_null :
    (text "is not(null)").isComplete ∧
    (text "\tis not  ( null\n)").isComplete ∧
    (text "\tis not  ( null\n)").tokens.map Token.word =
      [(.ident, "is"), (.not, "not"), (.openParen, "("), (.ident, "null"), (.closeParen, ")")] := by
  let pieces : List Piece :=
    [⟨['\t'], ⟨.ident, "is", 0⟩⟩, ⟨[' '], ⟨.not, "not", 3⟩⟩, ⟨[' ', ' '], ⟨.openParen, "(", 6⟩⟩,
      ⟨[' '], ⟨.ident, "null", 7⟩⟩, ⟨['\n'], ⟨.closeParen, ")", 11⟩⟩]
  have hcomplete : (text "is not(null)").isComplete := by decide +kernel
  have htokens : pieces.map Piece.token = (text "is not(null)").tokens := by decide +kernel
  have hlaid : String.ofList (pieces.flatMap Piece.text ++ []) = "\tis not  ( null\n)" := by decide
  have hgaps : pieces.all fun p => p.gap.all Text.isBlank := by decide
  have hgap : ∀ p ∈ pieces, ∀ c ∈ p.gap, Text.isBlank c := by
    simpa only [List.all_eq_true] using hgaps
  have h := @text_relaid _ hcomplete pieces [] htokens hgap (by decide) (List.forall_mem_nil _)
  rw [hlaid, ← htokens] at h
  exact ⟨hcomplete, h⟩

end Scan

end MessageSelector
