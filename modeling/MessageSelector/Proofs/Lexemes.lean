import MessageSelector.Operator
import MessageSelector.Token.Scan

/-!
# Lexemes in another context

A lexeme is found again where something else follows it, if what follows neither goes on with it nor
makes a keyword of it. The classes of lexemes fall into blanks, keywords, symbols and literals
(`table_eq`), and the first character of a text rules out most of them (`keywords_none`,
`symbols_none`, `firstLexeme?_of_literal`).
-/

namespace MessageSelector.Token

/-! ## Classes -/

namespace LexemeClass

/-- The classes of keywords, in their order. -/
def keywords : List LexemeClass :=
  [keyword .notBetween ["NOT", "BETWEEN"],
    keyword .notIn ["NOT", "IN"],
    keyword .notLike ["NOT", "LIKE"],
    keyword .isNotNull ["IS", "NOT", "NULL"],
    keyword .isNull ["IS", "NULL"],
    keyword .between ["BETWEEN"],
    keyword .inList ["IN"],
    keyword .like ["LIKE"],
    keyword .escape ["ESCAPE"],
    keyword .not ["NOT"],
    keyword .and ["AND"],
    keyword .or ["OR"],
    keyword .trueWord ["TRUE"],
    keyword .falseWord ["FALSE"]]

def symbols : List LexemeClass :=
  [Kind.notEqual, .lessOrEqual, .greaterOrEqual, .equal, .less, .greater, .plus, .minus, .times,
    .divide, .openParen, .closeParen, .comma].map symbol

def literals : List LexemeClass :=
  [⟨some .string, stringLength?⟩,
    ⟨some .hex, hexLength?⟩,
    ⟨some .float, floatLength?⟩,
    ⟨some .int, someRunLength? Char.isDigit⟩,
    ⟨some .ident, identLength?⟩]

theorem table_eq :
    table = ⟨none, someRunLength? Text.isBlank⟩ :: (keywords ++ (symbols ++ literals)) :=
  rfl

/-- What a class finds at the start of a text. -/
def find? (cs : List Char) (lexeme : LexemeClass) : Option (Option Kind × Nat) :=
  (lexeme.length? cs).map fun n => (lexeme.kind?, n)

end LexemeClass

open LexemeClass (keywords symbols literals find? table_eq)

/-- Where a lexeme of one kind is found, the classes of other kinds before it find nothing. -/
theorem length?_eq_none_of_before {cs : List Char} {kind? : Option Kind} {n : Nat}
    {before after : List LexemeClass} (htable : LexemeClass.table = before ++ after)
    (hbefore : ∀ lexeme ∈ before, lexeme.kind? ≠ kind?) (h : firstLexeme? cs = some (kind?, n)) :
    ∀ lexeme ∈ before, lexeme.length? cs = none := by
  have hfound : (before ++ after).findSome? (find? cs) = some (kind?, n) := by
    rw [← htable]
    exact h
  clear h htable
  induction before with
  | nil => exact List.forall_mem_nil _
  | cons lexeme before ih =>
    rw [List.cons_append, List.findSome?_cons] at hfound
    cases hlength : lexeme.length? cs with
    | none =>
      rw [find?, hlength] at hfound
      refine List.forall_mem_cons.2 ⟨hlength, ih (fun l hl => hbefore l ?_) hfound⟩
      exact List.mem_cons_of_mem _ hl
    | some m =>
      rw [find?, hlength] at hfound
      cases hfound
      exact absurd rfl (hbefore lexeme List.mem_cons_self)

/-- The classes before one that finds a lexeme, none of which finds one, do not matter. -/
theorem firstLexeme?_of_before {cs : List Char} {lexeme : LexemeClass} {n : Nat}
    {before after : List LexemeClass} (htable : LexemeClass.table = before ++ lexeme :: after)
    (hbefore : ∀ l ∈ before, l.length? cs = none) (h : lexeme.length? cs = some n) :
    firstLexeme? cs = some (lexeme.kind?, n) := by
  have hfind : (before ++ lexeme :: after).findSome? (find? cs) = some (lexeme.kind?, n) := by
    clear htable
    induction before with
    | nil => rw [List.nil_append, List.findSome?_cons, find?, h]; rfl
    | cons l before ih =>
      rw [List.cons_append, List.findSome?_cons, find?, hbefore l List.mem_cons_self]
      exact ih fun l hl => hbefore l (List.mem_cons_of_mem _ hl)
  rw [← htable] at hfind
  exact hfind

/-! ## First characters -/

/-- Whether a keyword can start with a character. -/
def startsKeyword (c : Char) : Bool :=
  ['N', 'I', 'B', 'L', 'E', 'A', 'O', 'T', 'F'].any (isLetter · c)

def startsSymbol (c : Char) : Bool :=
  ['<', '>', '=', '+', '-', '*', '/', '(', ')', ','].contains c

theorem keywords_none {c : Char} (h : startsKeyword c = false) (cs : List Char) :
    ∀ lexeme ∈ keywords, lexeme.length? (c :: cs) = none := by
  simp only [startsKeyword, List.any_cons, List.any_nil, Bool.or_eq_false_iff] at h
  simp only [keywords, List.forall_mem_cons, LexemeClass.keyword, List.map_cons, List.map_nil]
  simp [keywordLength?, wordsLength?, wordLength?, h]

theorem symbols_none {c : Char} (h : startsSymbol c = false) (cs : List Char) :
    ∀ lexeme ∈ symbols, lexeme.length? (c :: cs) = none := by
  simp only [startsSymbol, List.contains_cons, List.contains_nil, Bool.or_eq_false_iff,
    beq_eq_false_iff_ne] at h
  simp only [symbols, List.forall_mem_cons, LexemeClass.symbol, List.map_cons, List.map_nil]
  simp [symbolLength?, Kind.spelling]
  grind

/-- A text that starts with neither a blank nor a keyword nor a symbol starts with a literal. -/
theorem firstLexeme?_of_literal {c : Char} {cs : List Char} {lexeme : LexemeClass} {n : Nat}
    {before after : List LexemeClass} (hblank : Text.isBlank c = false)
    (hkeyword : ∀ l ∈ keywords, l.length? (c :: cs) = none) (hsymbol : startsSymbol c = false)
    (hliterals : literals = before ++ lexeme :: after)
    (hbefore : ∀ l ∈ before, l.length? (c :: cs) = none) (h : lexeme.length? (c :: cs) = some n) :
    firstLexeme? (c :: cs) = some (lexeme.kind?, n) := by
  refine @firstLexeme?_of_before _ lexeme n
    (⟨none, someRunLength? Text.isBlank⟩ :: (keywords ++ (symbols ++ before))) after ?_ ?_ h
  · simp [table_eq, hliterals]
  · refine List.forall_mem_cons.2 ⟨?_, List.forall_mem_append.2 ⟨hkeyword,
      List.forall_mem_append.2 ⟨symbols_none hsymbol cs, hbefore⟩⟩⟩
    simp [someRunLength?, runLength, hblank]

/-! ## Runs -/

theorem runLength_append {p : Char → Bool} {xs rest : List Char} (h : ∀ c ∈ xs, p c)
    (hrest : ∀ c, rest.head? = some c → p c = false) : runLength p (xs ++ rest) = xs.length := by
  rw [runLength, List.takeWhile_append_of_pos h]
  cases rest with
  | nil => simp
  | cons c rest => rw [List.takeWhile_cons_of_neg (by simp [hrest c rfl]), List.append_nil]

theorem someRunLength?_append {p : Char → Bool} {xs rest : List Char} (hne : xs ≠ [])
    (h : ∀ c ∈ xs, p c) (hrest : ∀ c, rest.head? = some c → p c = false) :
    someRunLength? p (xs ++ rest) = some xs.length := by
  rw [someRunLength?, runLength_append h hrest, if_neg (by simpa using hne)]

theorem someRunLength?_eq_none_iff {p : Char → Bool} {cs : List Char} :
    someRunLength? p cs = none ↔ ∀ c, cs.head? = some c → p c = false := by
  rw [someRunLength?, runLength]
  cases cs with
  | nil => simp
  | cons c cs =>
    cases hc : p c <;> simp [hc]

/-- A run ends where a character does not belong to it. -/
theorem runLength_split (p : Char → Bool) (cs : List Char) :
    ∃ xs rest, cs = xs ++ rest ∧ runLength p cs = xs.length ∧ (∀ c ∈ xs, p c) ∧
      ∀ c, rest.head? = some c → p c = false := by
  refine ⟨cs.takeWhile p, cs.dropWhile p, (List.takeWhile_append_dropWhile).symm, rfl, ?_, ?_⟩
  · exact List.all_eq_true.1 List.all_takeWhile
  · intro c hc
    have := List.head?_dropWhile_not p cs
    rw [hc] at this
    simpa using this

theorem someRunLength?_split {p : Char → Bool} {cs : List Char} {n : Nat}
    (h : someRunLength? p cs = some n) :
    ∃ xs rest, cs = xs ++ rest ∧ n = xs.length ∧ xs ≠ [] ∧ (∀ c ∈ xs, p c) ∧
      ∀ c, rest.head? = some c → p c = false := by
  obtain ⟨xs, rest, hcs, hlength, hall, hrest⟩ := runLength_split p cs
  rw [someRunLength?, hlength] at h
  split at h
  · cases h
  · next hne =>
    cases h
    refine ⟨xs, rest, hcs, rfl, ?_, hall, hrest⟩
    rintro rfl
    exact hne rfl

/-! ## Identifiers -/

theorem identLength?_split {cs : List Char} {n : Nat} (h : identLength? cs = some n) :
    ∃ c body rest, cs = c :: body ++ rest ∧ n = (c :: body).length ∧ isIdentStart c ∧
      (∀ d ∈ body, isIdentBody d) ∧ ∀ d, rest.head? = some d → isIdentBody d = false := by
  rw [identLength?.eq_def] at h
  split at h
  · next c cs =>
    split at h
    · next hc =>
      obtain ⟨body, rest, rfl, hrun, hbody, hrest⟩ := runLength_split isIdentBody cs
      rw [hrun] at h
      cases h
      exact ⟨c, body, rest, rfl, rfl, hc, hbody, hrest⟩
    · cases h
  · cases h

/-! ## Strings -/

/-- The characters between the outer quotes of a string literal. -/
inductive QuoteBody : List Char → Prop
  | nil : QuoteBody []
  | pair {body : List Char} : QuoteBody body → QuoteBody ('\'' :: '\'' :: body)
  | plain {c : Char} {body : List Char} : c ≠ '\'' → QuoteBody body → QuoteBody (c :: body)

/-- The closing quote is found behind the body, unless one more quote follows it. -/
theorem closingLength?_append {body rest : List Char} (h : QuoteBody body)
    (hrest : rest.head? ≠ some '\'') :
    closingLength? (body ++ '\'' :: rest) = some (body.length + 1) := by
  induction h with
  | nil =>
    -- Only a second quote could make the closing one part of the string.
    cases rest with
    | nil => rfl
    | cons c rest =>
      have hc : c ≠ '\'' := fun hc => hrest (congrArg some hc)
      rw [List.nil_append, closingLength?.eq_3 _ _ fun _ _ htail => hc (List.cons.inj htail).1]
      rfl
  | @pair body _ ih =>
    rw [List.cons_append, List.cons_append, closingLength?, ih]
    rfl
  | @plain c body hc _ ih =>
    rw [List.cons_append, closingLength?.eq_3 _ _ fun _ hhead => absurd hhead hc, if_neg hc, ih]
    rfl

theorem closingLength?_split {cs : List Char} {n : Nat} (h : closingLength? cs = some n) :
    ∃ body rest, cs = body ++ '\'' :: rest ∧ n = body.length + 1 ∧ QuoteBody body := by
  fun_induction closingLength? cs generalizing n with
  | case1 => cases h
  | case2 rest m hm ih =>
    obtain ⟨body, rest, rfl, rfl, hbody⟩ := ih hm
    cases h
    exact ⟨'\'' :: '\'' :: body, rest, rfl, rfl, .pair hbody⟩
  | case3 rest hnone ih =>
    cases h
    exact ⟨[], '\'' :: rest, rfl, rfl, .nil⟩
  | case4 rest hne =>
    cases h
    exact ⟨[], rest, rfl, rfl, .nil⟩
  | case5 c rest hne hc ih =>
    obtain ⟨m, hm, rfl⟩ := Option.map_eq_some_iff.1 h
    obtain ⟨body, rest, rfl, rfl, hbody⟩ := ih hm
    exact ⟨c :: body, rest, rfl, rfl, .plain hc hbody⟩

theorem quoteBody_doubleQuotes (s : List Char) : QuoteBody (Text.doubleQuotes s) := by
  induction s with
  | nil => exact .nil
  | cons c s ih =>
    rw [Text.doubleQuotes]
    split
    · exact .pair ih
    · next hc => exact .plain hc ih

theorem stringLength?_append {body rest : List Char} (h : QuoteBody body)
    (hrest : rest.head? ≠ some '\'') :
    stringLength? ('\'' :: (body ++ '\'' :: rest)) = some (body.length + 2) := by
  rw [stringLength?, closingLength?_append h hrest]
  rfl

theorem stringLength?_split {cs : List Char} {n : Nat} (h : stringLength? cs = some n) :
    ∃ body rest, cs = '\'' :: (body ++ '\'' :: rest) ∧ n = body.length + 1 + 1 ∧
      QuoteBody body := by
  rw [stringLength?.eq_def] at h
  split at h
  · obtain ⟨m, hm, rfl⟩ := Option.map_eq_some_iff.1 h
    obtain ⟨body, rest, rfl, rfl, hbody⟩ := closingLength?_split hm
    exact ⟨body, rest, rfl, rfl, hbody⟩
  · cases h

/-- A string literal is found where no quote follows it. -/
theorem firstLexeme?_string {body rest : List Char} (h : QuoteBody body)
    (hrest : rest.head? ≠ some '\'') :
    firstLexeme? ('\'' :: (body ++ '\'' :: rest)) = some (some .string, body.length + 2) :=
  @firstLexeme?_of_literal _ _ ⟨some .string, stringLength?⟩ _ [] _ (by decide)
    (keywords_none (by decide) _) (by decide) rfl (List.forall_mem_nil _)
    (stringLength?_append h hrest)

end MessageSelector.Token

/-! ## Steps of a scan -/

namespace MessageSelector.Scan

/-- A token is found where its text stands, and the scan goes on behind it, unless it is a number
without a value. -/
theorem textFrom_token {text : String} {rest : List Char} {kind : Token.Kind}
    (hne : text.toList ≠ [])
    (hfound : Token.firstLexeme? (text.toList ++ rest) = some (some kind, text.toList.length))
    (offset : Nat) :
    textFrom offset (text.toList ++ rest) =
      if stopsAt ⟨kind, text, offset⟩ then ⟨[], String.ofList (text.toList ++ rest), offset⟩
      else push ⟨kind, text, offset⟩ (textFrom (offset + text.toList.length) rest) := by
  obtain ⟨c, tail, htext⟩ := List.exists_cons_of_ne_nil hne
  have htoken : String.ofList (c :: (tail ++ rest).take tail.length) = text := by
    rw [List.take_left, ← htext, String.ofList_toList]
  rw [htext, List.length_cons, List.cons_append] at hfound
  rw [htext, List.cons_append, textFrom, hfound]
  simp only [htoken, List.drop_left, List.length_cons]

end MessageSelector.Scan
