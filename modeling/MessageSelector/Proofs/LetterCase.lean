import MessageSelector.Proofs.Scanning

/-!
# Letter case

A scan does not see the case of an ASCII letter (`text_of_sameLetters`): a text and its lower case
are cut at the same places into tokens of the same kinds, and a number keeps its value. Every lexeme
class and every reader of a number looks at a character only through tests that a letter passes in
both cases or in neither (`toLower_invariant`), so a fact about each test is carried up to the
classes (`caseBlind_of_mem_table`), to the whole scan and to the payloads (`payload?_lower`).
-/

namespace MessageSelector

namespace Text

/-- A text with its ASCII letters in lower case. -/
def lower (cs : List Char) : List Char :=
  cs.map Char.toLower

/-- Whether two texts agree at every position up to the case of an ASCII letter. -/
def SameLetters (cs ds : List Char) : Prop :=
  List.Forall₂ (fun c d => c.toLower = d.toLower) cs ds

theorem SameLetters.lower_eq {cs ds : List Char} (h : SameLetters cs ds) : lower cs = lower ds := by
  unfold lower
  induction h with
  | nil => rfl
  | cons hc _ ih => rw [List.map_cons, List.map_cons, hc, ih]

@[simp] theorem lower_nil : lower [] = [] :=
  rfl

@[simp] theorem lower_cons (c : Char) (cs : List Char) : lower (c :: cs) = c.toLower :: lower cs :=
  rfl

@[simp] theorem drop_lower (n : Nat) (cs : List Char) : (lower cs).drop n = lower (cs.drop n) :=
  List.map_drop.symm

@[simp] theorem take_lower (n : Nat) (cs : List Char) : (lower cs).take n = lower (cs.take n) :=
  List.map_take.symm

/-! ## Tests that do not see the case -/

def capitals : List Char :=
  ['A', 'B', 'C', 'D', 'E', 'F', 'G', 'H', 'I', 'J', 'K', 'L', 'M', 'N', 'O', 'P', 'Q', 'R', 'S',
    'T', 'U', 'V', 'W', 'X', 'Y', 'Z']

theorem mem_capitals {c : Char} (hfirst : 'A' ≤ c) (hlast : c ≤ 'Z') : c ∈ capitals := by
  have hall : ∀ n, n < 91 → 65 ≤ n → Char.ofNat n ∈ capitals := by decide
  have hmem := hall c.toNat (Nat.lt_succ_of_le hlast) hfirst
  rwa [Char.ofNat_toNat] at hmem

theorem toLower_of_not_mem {c : Char} (hc : c ∉ capitals) : c.toLower = c :=
  dif_neg fun hrange => hc (mem_capitals hrange.1 hrange.2)

/-- What holds of the capitals holds of every character, since no other one is lowered. -/
theorem toLower_invariant {α : Type} {f : Char → α} (h : (lower capitals).map f = capitals.map f)
    (c : Char) : f c.toLower = f c := by
  by_cases hc : c ∈ capitals
  · rw [lower, List.map_map, List.map_inj_left] at h
    exact h c hc
  · rw [toLower_of_not_mem hc]

theorem isBlank_toLower (c : Char) : isBlank c.toLower = isBlank c :=
  toLower_invariant (by decide) c

theorem isDigit_toLower (c : Char) : c.toLower.isDigit = c.isDigit :=
  toLower_invariant (by decide) c

theorem utf8Size_toLower (c : Char) : c.toLower.utf8Size = c.utf8Size :=
  toLower_invariant (by decide) c

theorem isAlpha_toLower (c : Char) : c.toLower.isAlpha = c.isAlpha :=
  toLower_invariant (by decide) c

theorem toLower_of_not_alpha {c : Char} (hc : c.isAlpha = false) : c.toLower = c := by
  apply toLower_of_not_mem
  intro hcapital
  have hall : capitals.all Char.isAlpha = true := by decide
  rw [List.all_eq_true.1 hall c hcapital] at hc
  cases hc

/-- Only the character itself is lowered to one that is no letter. -/
theorem toLower_eq_iff {c : Char} (hc : c.isAlpha = false) (d : Char) :
    d.toLower = c ↔ d = c := by
  constructor
  · intro heq
    have hd : d.isAlpha = false := by rw [← isAlpha_toLower, heq, hc]
    rwa [toLower_of_not_alpha hd] at heq
  · rintro rfl
    exact toLower_of_not_alpha hc

/-- A text starts with a character that is no letter if and only if its lower case does. -/
theorem starts_or {c : Char} (hc : c.isAlpha = false) (cs : List Char) :
    (∃ rest, cs = c :: rest ∧ lower cs = c :: lower rest) ∨
      (∀ rest, cs ≠ c :: rest) ∧ ∀ rest, lower cs ≠ c :: rest := by
  cases cs with
  | nil =>
    have hne (rest : List Char) : [] ≠ c :: rest := (List.cons_ne_nil c rest).symm
    exact .inr ⟨hne, hne⟩
  | cons d rest =>
    by_cases hd : d = c
    · subst hd
      exact .inl ⟨rest, rfl, by rw [lower_cons, (toLower_eq_iff hc d).2 rfl]⟩
    · refine .inr ⟨fun _ h => hd (List.cons.inj h).1, fun _ h => hd ?_⟩
      exact (toLower_eq_iff hc d).1 (List.cons.inj h).1

end Text

namespace Token

open Text (lower toLower_invariant toLower_eq_iff)
open LexemeClass (keywords symbols literals table_eq)

theorem hexDigit?_toLower (c : Char) : hexDigit? c.toLower = hexDigit? c :=
  toLower_invariant (by decide) c

theorem isFloatSuffix_toLower (c : Char) : isFloatSuffix c.toLower = isFloatSuffix c :=
  toLower_invariant (by decide) c

theorem isIdentStart_toLower (c : Char) : isIdentStart c.toLower = isIdentStart c :=
  toLower_invariant (by decide) c

theorem isIdentBody_toLower (c : Char) : isIdentBody c.toLower = isIdentBody c :=
  toLower_invariant (by decide) c

theorem isLetter_toLower {w : Char} (hw : w ∈ Text.capitals) (c : Char) :
    isLetter w c.toLower = isLetter w c := by
  have hall : (Text.capitals.all fun w =>
      (lower Text.capitals).map (isLetter w) = Text.capitals.map (isLetter w)) = true := by
    decide +kernel
  exact toLower_invariant (of_decide_eq_true (List.all_eq_true.1 hall w hw)) c

/-! ## Classes -/

/-- A length function that finds the same in the lower case of a text. -/
def CaseBlind (length? : List Char → Option Nat) : Prop :=
  ∀ cs, length? (lower cs) = length? cs

theorem runLength_lower {p : Char → Bool} (hp : ∀ c, p c.toLower = p c) (cs : List Char) :
    runLength p (lower cs) = runLength p cs := by
  have hcomp : p ∘ Char.toLower = p := funext hp
  rw [runLength, runLength, lower, List.takeWhile_map, hcomp, List.length_map]

theorem caseBlind_run {p : Char → Bool} (hp : ∀ c, p c.toLower = p c) :
    CaseBlind (someRunLength? p) := by
  intro cs
  rw [someRunLength?, someRunLength?, runLength_lower hp]

theorem wordLength?_lower {word : List Char} (hword : ∀ w ∈ word, w ∈ Text.capitals)
    (cs : List Char) : wordLength? word (lower cs) = wordLength? word cs := by
  induction word generalizing cs with
  | nil => rw [wordLength?, wordLength?]
  | cons w word ih =>
    cases cs with
    | nil => rfl
    | cons c cs =>
      obtain ⟨hw, hword⟩ := List.forall_mem_cons.1 hword
      rw [Text.lower_cons, wordLength?, wordLength?, isLetter_toLower hw, ih hword]

theorem wordsLength?_lower {words : List (List Char)}
    (hwords : ∀ word ∈ words, ∀ w ∈ word, w ∈ Text.capitals) (cs : List Char) :
    wordsLength? words (lower cs) = wordsLength? words cs := by
  fun_induction wordsLength? words cs with
  | case1 => rw [wordsLength?]
  | case2 word cs =>
    rw [wordsLength?, wordLength?_lower (hwords word List.mem_cons_self)]
  | case3 word words cs hne ih =>
    obtain ⟨hword, hwords⟩ := List.forall_mem_cons.1 hwords
    rw [wordsLength?.eq_3 _ _ _ hne, wordLength?_lower hword]
    simp only [Text.drop_lower, caseBlind_run Text.isBlank_toLower _, ih _ _ hwords]

/-- No character of an identifier follows a keyword, in either case. -/
theorem caseBlind_keyword {words : List (List Char)}
    (hwords : ∀ word ∈ words, word ⊆ Text.capitals) : CaseBlind (keywordLength? words) := by
  intro cs
  rw [keywordLength?, keywordLength?, wordsLength?_lower hwords]
  congr 1
  funext n
  rw [Text.drop_lower]
  cases cs.drop n with
  | nil => rfl
  | cons c rest => simp only [Text.lower_cons, isIdentBody_toLower]

theorem caseBlind_symbol {symbol : List Char} (hsymbol : symbol.any Char.isAlpha = false) :
    CaseBlind (symbolLength? symbol) := by
  intro cs
  have hprefix : symbol.isPrefixOf (lower cs) = symbol.isPrefixOf cs := by
    induction symbol generalizing cs with
    | nil => rfl
    | cons c symbol ih =>
      cases cs with
      | nil => rfl
      | cons d cs =>
        rw [List.any_cons, Bool.or_eq_false_iff] at hsymbol
        obtain ⟨hc, hsymbol⟩ := hsymbol
        have hsame : (c == d.toLower) = (c == d) := by
          rw [Bool.eq_iff_iff, beq_iff_eq, beq_iff_eq, eq_comm, toLower_eq_iff hc, eq_comm]
        rw [Text.lower_cons, List.isPrefixOf_cons_cons, List.isPrefixOf_cons_cons, hsame,
          ih hsymbol]
  rw [symbolLength?, symbolLength?, hprefix]

theorem closingLength?_lower (cs : List Char) : closingLength? (lower cs) = closingLength? cs := by
  have hquote : '\''.isAlpha = false := by decide
  have hsame : '\''.toLower = '\'' := by decide
  fun_induction closingLength? cs with
  | case1 => rfl
  | case2 rest n hn ih =>
    rw [hn] at ih
    rw [Text.lower_cons, Text.lower_cons, hsame, closingLength?, ih]
  | case3 rest hnone ih =>
    rw [hnone] at ih
    rw [Text.lower_cons, Text.lower_cons, hsame, closingLength?, ih]
  | case4 rest hne =>
    -- The quote is the last one, since neither the text nor its lower case has one behind it.
    rcases Text.starts_or hquote rest with ⟨rest', hrest, -⟩ | ⟨-, hlower⟩
    · exact absurd hrest (hne rest' rfl)
    · rw [Text.lower_cons, hsame, closingLength?.eq_3 _ _ fun ds _ => hlower ds, if_pos rfl]
  | case5 c rest hne hc ih =>
    have hlower : c.toLower ≠ '\'' := mt (toLower_eq_iff hquote c).1 hc
    rw [Text.lower_cons, closingLength?.eq_3 _ _ fun _ heq => absurd heq hlower, if_neg hlower, ih]

theorem caseBlind_string : CaseBlind stringLength? := by
  intro cs
  rcases Text.starts_or (c := '\'') (by decide) cs with ⟨rest, rfl, hlower⟩ | ⟨hne, hlower⟩
  · rw [hlower, stringLength?, stringLength?, closingLength?_lower]
  · rw [stringLength?.eq_2 _ hne, stringLength?.eq_2 _ hlower]

theorem isHexMark_toLower (c : Char) :
    (c.toLower = 'x' ∨ c.toLower = 'X') ↔ (c = 'x' ∨ c = 'X') := by
  have hmark := toLower_invariant (f := fun c => decide (c = 'x' ∨ c = 'X')) (by decide) c
  simpa only [decide_eq_decide] using hmark

theorem isExponentMark_toLower (c : Char) :
    (c.toLower = 'e' ∨ c.toLower = 'E') ↔ (c = 'e' ∨ c = 'E') := by
  have hmark := toLower_invariant (f := fun c => decide (c = 'e' ∨ c = 'E')) (by decide) c
  simpa only [decide_eq_decide] using hmark

theorem caseBlind_hex : CaseBlind hexLength? := by
  intro cs
  have hdigits := @caseBlind_run (fun c => (hexDigit? c).isSome) fun c => by rw [hexDigit?_toLower]
  rcases Text.starts_or (c := '0') (by decide) cs with ⟨rest, rfl, hlower⟩ | ⟨hne, hlower⟩
  · cases rest with
    | nil => rfl
    | cons x rest =>
      rw [hlower, Text.lower_cons, hexLength?, hexLength?, hdigits]
      simp only [isHexMark_toLower]
  · rw [hexLength?.eq_2 _ fun x rest => hne (x :: rest),
      hexLength?.eq_2 _ fun x rest => hlower (x :: rest)]

theorem caseBlind_exponent : CaseBlind exponentLength? := by
  intro cs
  have hdigits := caseBlind_run Text.isDigit_toLower
  cases cs with
  | nil => rfl
  | cons e rest =>
    rw [Text.lower_cons]
    rcases Text.starts_or (c := '+') (by decide) rest with ⟨rest, rfl, hlower⟩ | ⟨hplus, hplus'⟩
    · rw [hlower, exponentLength?, exponentLength?, hdigits]
      simp only [isExponentMark_toLower]
    rcases Text.starts_or (c := '-') (by decide) rest with ⟨rest, rfl, hlower⟩ | ⟨hminus, hminus'⟩
    · rw [hlower, exponentLength?, exponentLength?, hdigits]
      simp only [isExponentMark_toLower]
    rw [exponentLength?.eq_3 _ _ hplus hminus, exponentLength?.eq_3 _ _ hplus' hminus', hdigits]
    simp only [isExponentMark_toLower]

theorem suffixLength_lower (cs : List Char) : suffixLength (lower cs) = suffixLength cs := by
  cases cs with
  | nil => rfl
  | cons c cs => rw [Text.lower_cons, suffixLength, suffixLength, isFloatSuffix_toLower]

theorem scaledLength_lower (cs : List Char) (n : Nat) :
    scaledLength (lower cs) n = scaledLength cs n := by
  simp only [scaledLength, Text.drop_lower, caseBlind_exponent _, suffixLength_lower]

theorem floatLength?_of_no_point {cs : List Char}
    (h : ∀ rest, cs.drop (runLength Char.isDigit cs) ≠ '.' :: rest) :
    floatLength? cs =
      let whole := runLength Char.isDigit cs
      if whole = 0 then none
      else if (exponentLength? (cs.drop whole)).isSome ∨ suffixLength (cs.drop whole) = 1 then
        some (scaledLength cs whole)
      else none := by
  rw [floatLength?]
  split
  · next rest hrest => exact absurd hrest (h rest)
  · rfl

theorem caseBlind_float : CaseBlind floatLength? := by
  intro cs
  have hrun := runLength_lower Text.isDigit_toLower
  rcases Text.starts_or (c := '.') (by decide) (cs.drop (runLength Char.isDigit cs)) with
    ⟨rest, hrest, hlower⟩ | ⟨hne, hlower⟩
  · rw [floatLength?, floatLength?, hrun, Text.drop_lower, hlower, hrest]
    simp only [hrun, scaledLength_lower]
  · rw [floatLength?_of_no_point hne, floatLength?_of_no_point (by rwa [hrun, Text.drop_lower])]
    simp only [hrun, Text.drop_lower, caseBlind_exponent _, suffixLength_lower, scaledLength_lower]

theorem caseBlind_ident : CaseBlind identLength? := by
  intro cs
  cases cs with
  | nil => rfl
  | cons c cs =>
    rw [Text.lower_cons, identLength?, identLength?, isIdentStart_toLower,
      runLength_lower isIdentBody_toLower]

/-- No class of lexemes sees the case of a letter. -/
theorem caseBlind_of_mem_table : ∀ lexeme ∈ LexemeClass.table, CaseBlind lexeme.length? := by
  rw [table_eq]
  refine List.forall_mem_cons.2 ⟨caseBlind_run Text.isBlank_toLower, List.forall_mem_append.2
    ⟨?_, List.forall_mem_append.2 ⟨?_, ?_⟩⟩⟩
  · simp only [keywords, LexemeClass.keyword, List.map_cons, List.map_nil, List.forall_mem_cons]
    refine ⟨?_, ?_, ?_, ?_, ?_, ?_, ?_, ?_, ?_, ?_, ?_, ?_, ?_, ?_, List.forall_mem_nil _⟩ <;>
      exact caseBlind_keyword (by decide)
  · simp only [symbols, List.map_cons, List.map_nil, LexemeClass.symbol, List.forall_mem_cons]
    refine ⟨?_, ?_, ?_, ?_, ?_, ?_, ?_, ?_, ?_, ?_, ?_, ?_, ?_, List.forall_mem_nil _⟩ <;>
      exact caseBlind_symbol (by decide)
  · simp only [literals, List.forall_mem_cons]
    exact ⟨caseBlind_string, caseBlind_hex, caseBlind_float, caseBlind_run Text.isDigit_toLower,
      caseBlind_ident, List.forall_mem_nil _⟩

/-- A text and its lower case start with the same lexeme. -/
theorem firstLexeme?_lower (cs : List Char) : firstLexeme? (lower cs) = firstLexeme? cs := by
  unfold firstLexeme?
  generalize htable : LexemeClass.table = lexemes
  have hblind : ∀ lexeme ∈ lexemes, CaseBlind lexeme.length? := htable ▸ caseBlind_of_mem_table
  clear htable
  induction lexemes with
  | nil => rfl
  | cons lexeme lexemes ih =>
    obtain ⟨hlexeme, hblind⟩ := List.forall_mem_cons.1 hblind
    rw [List.findSome?_cons, List.findSome?_cons, hlexeme cs, ih hblind]

end Token

/-! ## Numbers -/

namespace Decimal

open Text (lower)

/-- Digits are no letters. -/
theorem toLower_of_isDigit {c : Char} (h : c.isDigit) : c.toLower = c := by
  have hcapital : ¬('A' ≤ c ∧ c ≤ 'Z') := by
    rintro ⟨hfirst, -⟩
    have hlast : c ≤ '9' := by
      simp only [Char.isDigit, Bool.and_eq_true, decide_eq_true_eq] at h
      exact h.2
    exact absurd (Char.le_trans hfirst hlast) (by decide)
  exact dif_neg hcapital

theorem lower_digits {cs : List Char} (h : ∀ c ∈ cs, c.isDigit) : lower cs = cs := by
  induction cs with
  | nil => rfl
  | cons c cs ih =>
    obtain ⟨hc, hcs⟩ := List.forall_mem_cons.1 h
    rw [Text.lower_cons, toLower_of_isDigit hc, ih hcs]

theorem takeWhile_lower (cs : List Char) :
    (lower cs).takeWhile Char.isDigit = cs.takeWhile Char.isDigit := by
  have hcomp : Char.isDigit ∘ Char.toLower = Char.isDigit := funext Text.isDigit_toLower
  rw [lower, List.takeWhile_map, hcomp]
  exact lower_digits (List.all_eq_true.1 List.all_takeWhile)

theorem dropWhile_lower {p : Char → Bool} (hp : ∀ c, p c.toLower = p c) (cs : List Char) :
    (lower cs).dropWhile p = lower (cs.dropWhile p) := by
  have hcomp : p ∘ Char.toLower = p := funext hp
  rw [lower, List.dropWhile_map, hcomp, lower]

theorem natural?_lower (cs : List Char) : natural? (lower cs) = natural? cs := by
  have hall : (lower cs).all Char.isDigit = cs.all Char.isDigit := by
    rw [lower, List.all_map]
    exact congrArg cs.all (funext Text.isDigit_toLower)
  unfold natural?
  rw [hall, lower, List.isEmpty_map]
  cases hdigits : cs.all Char.isDigit with
  | false => simp
  | true => rw [← lower, lower_digits (List.all_eq_true.1 hdigits)]

theorem integer?_lower (cs : List Char) : integer? (lower cs) = integer? cs := by
  rcases Text.starts_or (c := '-') (by decide) cs with ⟨rest, rfl, hlower⟩ | ⟨hminus, hminus'⟩
  · rw [hlower, integer?, integer?, natural?_lower]
  rcases Text.starts_or (c := '+') (by decide) cs with ⟨rest, rfl, hlower⟩ | ⟨hplus, hplus'⟩
  · rw [hlower, integer?, integer?, natural?_lower]
  rw [integer?.eq_3 _ hminus hplus, integer?.eq_3 _ hminus' hplus', natural?_lower]

theorem exponent?_lower (cs : List Char) : Numeral.exponent? (lower cs) = Numeral.exponent? cs := by
  cases cs with
  | nil => rfl
  | cons c cs =>
    simp only [Text.lower_cons, Numeral.exponent?, Token.isExponentMark_toLower, integer?_lower]

theorem unsigned?_of_no_point {cs : List Char} (h : ∀ rest, cs.dropWhile Char.isDigit ≠ '.' :: rest)
    (negative : Bool) : Numeral.unsigned? negative cs =
      let whole := cs.takeWhile Char.isDigit
      if whole.isEmpty then none
      else (Numeral.exponent? (cs.dropWhile Char.isDigit)).map fun e =>
        ⟨negative, ofDigits whole, e⟩ := by
  rw [Numeral.unsigned?]
  split
  · next rest hrest => exact absurd hrest (h rest)
  · rfl

theorem unsigned?_lower (negative : Bool) (cs : List Char) :
    Numeral.unsigned? negative (lower cs) = Numeral.unsigned? negative cs := by
  have hdrop := dropWhile_lower Text.isDigit_toLower
  rcases Text.starts_or (c := '.') (by decide) (cs.dropWhile Char.isDigit) with
    ⟨rest, hrest, hlower⟩ | ⟨hne, hlower⟩
  · rw [Numeral.unsigned?, Numeral.unsigned?, hdrop, hlower, hrest]
    simp only [takeWhile_lower, hdrop, exponent?_lower]
  · rw [unsigned?_of_no_point hne, unsigned?_of_no_point (by rwa [hdrop])]
    simp only [takeWhile_lower, hdrop, exponent?_lower]

theorem named?_lower (cs : List Char) : named? (lower cs) = named? cs := by
  have hsame : (lower cs).map Char.toLower = cs.map Char.toLower := by
    rw [lower, List.map_map]
    refine List.map_congr_left fun c _ => ?_
    exact Text.toLower_invariant (by decide) c
  rw [named?, named?, hsame]

theorem unsignedFloat?_lower (negative : Bool) (cs : List Char) :
    unsignedFloat? negative (lower cs) = unsignedFloat? negative cs := by
  rw [unsignedFloat?, unsignedFloat?, unsigned?_lower, named?_lower]

theorem float?_lower (cs : List Char) : float? (lower cs) = float? cs := by
  rcases Text.starts_or (c := '-') (by decide) cs with ⟨rest, rfl, hlower⟩ | ⟨hminus, hminus'⟩
  · rw [hlower, float?, float?, unsignedFloat?_lower]
  rcases Text.starts_or (c := '+') (by decide) cs with ⟨rest, rfl, hlower⟩ | ⟨hplus, hplus'⟩
  · rw [hlower, float?, float?, unsignedFloat?_lower]
  rw [float?.eq_3 _ hminus hplus, float?.eq_3 _ hminus' hplus', unsignedFloat?_lower]

end Decimal

namespace Token

theorem hexValueFrom_lower (sofar : Nat) (cs : List Char) :
    hexValueFrom sofar (Text.lower cs) = hexValueFrom sofar cs := by
  induction cs generalizing sofar with
  | nil => rfl
  | cons c cs ih =>
    simp only [Text.lower_cons, hexValueFrom, hexDigit?_toLower, ih]

theorem afterTwoBytes?_lower (cs : List Char) :
    afterTwoBytes? (Text.lower cs) = (afterTwoBytes? cs).map Text.lower := by
  cases cs with
  | nil => rfl
  | cons a cs =>
    cases cs with
    | nil =>
      simp only [Text.lower_cons, Text.lower_nil, afterTwoBytes?, Text.utf8Size_toLower]
      split <;> simp
    | cons b cs =>
      simp only [Text.lower_cons, afterTwoBytes?, Text.utf8Size_toLower]
      split
      · rfl
      · split
        · split <;> rfl
        · rfl

theorem hex?_lower (cs : List Char) : hex? (Text.lower cs) = hex? cs := by
  rw [hex?, hex?, afterTwoBytes?_lower]
  cases afterTwoBytes? cs with
  | none => rfl
  | some digits =>
    cases digits with
    | nil => rfl
    | cons c digits =>
      have hvalue := hexValueFrom_lower 0 (c :: digits)
      rw [Text.lower_cons] at hvalue
      simp only [Option.map_some, Text.lower_cons, hvalue]

theorem float?_lower (cs : List Char) : float? (Text.lower cs) = float? cs := by
  have hreverse (cs : List Char) : (Text.lower cs).reverse = Text.lower cs.reverse :=
    List.map_reverse.symm
  rw [float?, float?, hreverse, Decimal.dropWhile_lower isFloatSuffix_toLower, hreverse,
    Decimal.float?_lower]

/-- The token as it is scanned from the lower case of its text. -/
def lower (t : Token) : Token :=
  { t with text := String.ofList (Text.lower t.text.toList) }

theorem lower_mk (kind : Kind) (cs : List Char) (offset : Nat) :
    Token.lower ⟨kind, String.ofList cs, offset⟩ =
      ⟨kind, String.ofList (Text.lower cs), offset⟩ := by
  rw [lower, String.toList_ofList]

/-- A number has the same value in lower case. -/
theorem payload?_lower {t : Token} (h : t.kind.isNumeric) : t.lower.payload? = t.payload? := by
  obtain ⟨kind, text, offset⟩ := t
  cases kind <;> simp only [Kind.isNumeric, Bool.false_eq_true] at h
  case hex => simp only [payload?, lower, String.toList_ofList, hex?_lower]
  case float => simp only [payload?, lower, String.toList_ofList, float?_lower]
  case int => simp only [payload?, lower, String.toList_ofList, Decimal.int64?,
    Decimal.integer?_lower]

end Token

namespace Scan

theorem stopsAt_lower (t : Token) : stopsAt t.lower = stopsAt t := by
  cases hnumeric : t.kind.isNumeric with
  | false => simp [stopsAt, Token.lower, hnumeric]
  | true => rw [stopsAt, stopsAt, Token.payload?_lower hnumeric]; rfl

/-- The scan of the lower case of a text. -/
def lower (s : Scan) : Scan where
  tokens := s.tokens.map Token.lower
  residue := String.ofList (Text.lower s.residue.toList)
  residueOffset := s.residueOffset

theorem lower_tokens (s : Scan) : s.lower.tokens = s.tokens.map Token.lower :=
  rfl

theorem lower_push (t : Token) (s : Scan) : (push t s).lower = push t.lower s.lower :=
  rfl

/-- The lower case of a text is scanned as the text is. -/
theorem textFrom_lower (offset : Nat) (cs : List Char) :
    textFrom offset (Text.lower cs) = (textFrom offset cs).lower := by
  fun_induction textFrom offset cs with
  | case1 offset => rw [Text.lower_nil, textFrom]; rfl
  | case2 offset c rest hnone =>
    rw [← Token.firstLexeme?_lower, Text.lower_cons] at hnone
    rw [Text.lower_cons, textFrom, hnone]
    simp [lower]
  | case3 offset c rest kind? hfound =>
    exact absurd (Token.advances_firstLexeme? hfound).1 (Nat.lt_irrefl 0)
  | case4 offset c rest n hfound ih =>
    rw [← Token.firstLexeme?_lower, Text.lower_cons] at hfound
    rw [Text.lower_cons, textFrom, hfound]
    simp only [Text.drop_lower, ih]
  | case5 offset c rest kind n hfound token hstop =>
    rw [← Token.firstLexeme?_lower, Text.lower_cons] at hfound
    have htoken := Token.lower_mk kind (c :: rest.take n) offset
    rw [Text.lower_cons, ← Text.take_lower] at htoken
    rw [← stopsAt_lower, htoken] at hstop
    rw [Text.lower_cons, textFrom, hfound]
    simp only [if_pos hstop]
    simp [lower]
  | case6 offset c rest kind n hfound token hstop ih =>
    rw [← Token.firstLexeme?_lower, Text.lower_cons] at hfound
    have htoken := Token.lower_mk kind (c :: rest.take n) offset
    rw [Text.lower_cons, ← Text.take_lower] at htoken
    rw [← stopsAt_lower, htoken] at hstop
    rw [Text.lower_cons, textFrom, hfound]
    simp only [if_neg hstop]
    rw [lower_push, htoken, Text.drop_lower, ih]

/-- **The case of an ASCII letter does not change the tokens.** Two texts that agree up to the
case of letters are scanned into tokens of the same kinds at the same offsets, numbers have the
same values, and both scans stop at the same place. -/
theorem text_of_sameLetters {s t : String} (h : Text.SameLetters s.toList t.toList) :
    List.Forall₂ (fun a b : Token => a.kind = b.kind ∧ a.offset = b.offset ∧
        (a.kind.isNumeric → a.payload? = b.payload?)) (text s).tokens (text t).tokens ∧
      (text s).residueOffset = (text t).residueOffset := by
  have hsame : (text s).lower = (text t).lower := by
    rw [text, text, ← textFrom_lower, ← textFrom_lower, h.lower_eq]
  have htokens : (text s).tokens.map Token.lower = (text t).tokens.map Token.lower := by
    rw [← lower_tokens, hsame, lower_tokens]
  have hresidue : (text s).lower.residueOffset = (text t).lower.residueOffset := by rw [hsame]
  refine ⟨?_, hresidue⟩
  rw [← List.forall₂_eq_eq_eq, List.forall₂_map_left_iff, List.forall₂_map_right_iff] at htokens
  refine htokens.imp ?_
  intro a b hab
  have hkind : a.lower.kind = b.lower.kind := by rw [hab]
  have hoffset : a.lower.offset = b.lower.offset := by rw [hab]
  refine ⟨hkind, hoffset, fun hnumeric => ?_⟩
  have hnumeric' : b.kind.isNumeric := by rwa [← show a.kind = b.kind from hkind]
  rw [← Token.payload?_lower hnumeric, hab, Token.payload?_lower hnumeric']

/-- The Kelvin sign is no ASCII letter, and the same in both texts. -/
theorem text_of_sameLetters_mixed :
    List.Forall₂ (fun a b : Token => a.kind = b.kind ∧ a.offset = b.offset ∧
        (a.kind.isNumeric → a.payload? = b.payload?))
        (text "0XaF nOT li\u212aE 1E2F ?").tokens (text "0xAf Not LI\u212ae 1e2f ?").tokens ∧
      (text "0XaF nOT li\u212aE 1E2F ?").residueOffset =
        (text "0xAf Not LI\u212ae 1e2f ?").residueOffset :=
  text_of_sameLetters (by simp only [Text.SameLetters]; decide)

end Scan

end MessageSelector
