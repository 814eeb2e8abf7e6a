import MessageSelector.Proofs.Relexing

/-!
# Scanning loses nothing

A scan cuts a text into blanks, tokens and a residue (`Lossless`, `text_lossless`). Each step takes
a lexeme off the text, which is a start of it and not empty (`Advances`), so the pieces in their
order are the text again, and the offset of a token counts the characters in front of it. A scan
stops at the end of the text, where no lexeme starts, or in front of a number that its
representation cannot hold (`Stops`).
-/

namespace MessageSelector

namespace Token

open LexemeClass (keywords symbols literals table_eq)

/-! ## Lexemes are starts of the text -/

/-- What is found at the start of a text is not empty and ends in the text. -/
def Advances (length? : List Char → Option Nat) : Prop :=
  ∀ cs n, length? cs = some n → 0 < n ∧ n ≤ cs.length

theorem advances_of_split {length? : List Char → Option Nat}
    (h : ∀ cs n, length? cs = some n →
      ∃ text rest, cs = text ++ rest ∧ n = text.length ∧ text ≠ []) : Advances length? := by
  intro cs n hn
  obtain ⟨text, rest, rfl, rfl, hne⟩ := h cs n hn
  rw [List.length_append]
  exact ⟨List.length_pos_iff.2 hne, Nat.le_add_right _ _⟩

theorem advances_run (p : Char → Bool) : Advances (someRunLength? p) := by
  apply advances_of_split
  intro cs n h
  obtain ⟨xs, rest, hcs, hn, hne, -⟩ := someRunLength?_split h
  exact ⟨xs, rest, hcs, hn, hne⟩

/-- Words end in the text, and behind the first one. -/
theorem wordsLength?_le {words : List (List Char)} {cs : List Char} {n : Nat}
    (h : wordsLength? words cs = some n) :
    n ≤ cs.length ∧ ∀ word, words.head? = some word → word.length ≤ n := by
  fun_induction wordsLength? words cs generalizing n with
  | case1 =>
    cases h
    exact ⟨Nat.zero_le _, by simp⟩
  | case2 cs word =>
    obtain ⟨hword, hle⟩ := wordLength?_length h
    refine ⟨hle, ?_⟩
    rintro _ ⟨⟩
    exact Nat.le_of_eq hword.symm
  | case3 cs word words hne ih =>
    simp only [Option.bind_eq_some_iff, Option.map_eq_some_iff] at h
    obtain ⟨m, hm, blanks, hblanks, more, hmore, rfl⟩ := h
    obtain ⟨hword, hle⟩ := wordLength?_length hm
    have hblanksLe := (advances_run _ _ _ hblanks).2
    have hmoreLe := (ih m blanks hmore).1
    rw [List.length_drop] at hblanksLe hmoreLe
    refine ⟨by omega, ?_⟩
    rintro _ ⟨⟩
    omega

theorem advances_keyword {word : List Char} {words : List (List Char)} (h : word ≠ []) :
    Advances (keywordLength? (word :: words)) := by
  intro cs n hn
  obtain ⟨m, hm, hend⟩ := Option.bind_eq_some_iff.1 hn
  obtain ⟨hle, hword⟩ := wordsLength?_le hm
  have hpos := List.length_pos_iff.2 h
  have hfirst := hword word rfl
  have hnm : n = m := by
    split at hend
    · split at hend <;> cases hend
      rfl
    · cases hend
      rfl
  omega

theorem advances_symbol {symbol : List Char} (h : symbol ≠ []) :
    Advances (symbolLength? symbol) := by
  apply advances_of_split
  intro cs n hn
  unfold symbolLength? at hn
  split at hn
  · next hprefix =>
    cases hn
    obtain ⟨rest, rfl⟩ := List.isPrefixOf_iff_prefix.1 hprefix
    exact ⟨symbol, rest, rfl, rfl, h⟩
  · cases hn

theorem advances_string : Advances stringLength? := by
  apply advances_of_split
  intro cs n h
  obtain ⟨body, rest, rfl, rfl, -⟩ := stringLength?_split h
  exact ⟨'\'' :: (body ++ ['\'']), rest, by simp, by simp, List.cons_ne_nil _ _⟩

theorem advances_hex : Advances hexLength? := by
  apply advances_of_split
  intro cs n h
  obtain ⟨text, rest, hcs, hn, htext⟩ := hexLength?_split h
  cases htext
  exact ⟨_, rest, hcs, hn, List.cons_ne_nil _ _⟩

theorem advances_float : Advances floatLength? := by
  apply advances_of_split
  intro cs n h
  obtain ⟨text, rest, hcs, hn, htext⟩ := floatLength?_split h
  obtain ⟨c, more, rfl, -⟩ := htext.head
  exact ⟨_, rest, hcs, hn, List.cons_ne_nil _ _⟩

theorem advances_ident : Advances identLength? := by
  apply advances_of_split
  intro cs n h
  obtain ⟨c, body, rest, hcs, hn, -⟩ := identLength?_split h
  exact ⟨c :: body, rest, hcs, hn, List.cons_ne_nil _ _⟩

/-- Every class of lexemes finds a start of the text that is not empty. -/
theorem advances_of_mem_table : ∀ lexeme ∈ LexemeClass.table, Advances lexeme.length? := by
  rw [table_eq]
  refine List.forall_mem_cons.2 ⟨advances_run _, List.forall_mem_append.2 ⟨?_,
    List.forall_mem_append.2 ⟨?_, ?_⟩⟩⟩
  · simp only [keywords, LexemeClass.keyword, List.map_cons, List.forall_mem_cons]
    refine ⟨?_, ?_, ?_, ?_, ?_, ?_, ?_, ?_, ?_, ?_, ?_, ?_, ?_, ?_, List.forall_mem_nil _⟩ <;>
      exact advances_keyword (by decide)
  · simp only [symbols, List.map_cons, List.map_nil, LexemeClass.symbol, List.forall_mem_cons]
    refine ⟨?_, ?_, ?_, ?_, ?_, ?_, ?_, ?_, ?_, ?_, ?_, ?_, ?_, List.forall_mem_nil _⟩ <;>
      exact advances_symbol (by decide)
  · simp only [literals, List.forall_mem_cons]
    exact ⟨advances_string, advances_hex, advances_float, advances_run _, advances_ident,
      List.forall_mem_nil _⟩

theorem firstLexeme?_eq_none_iff {cs : List Char} :
    firstLexeme? cs = none ↔ ∀ lexeme ∈ LexemeClass.table, lexeme.length? cs = none := by
  simp [firstLexeme?, List.findSome?_eq_none_iff]

theorem advances_firstLexeme? {cs : List Char} {kind? : Option Kind} {n : Nat}
    (h : firstLexeme? cs = some (kind?, n)) : 0 < n ∧ n ≤ cs.length := by
  obtain ⟨lexeme, hmem, hfound⟩ := List.exists_of_findSome?_eq_some h
  obtain ⟨m, hm, heq⟩ := Option.map_eq_some_iff.1 hfound
  cases heq
  exact advances_of_mem_table lexeme hmem cs _ hm

/-- A lexeme that is no token is a run of blanks, as long as it can be. -/
theorem isBlank_of_firstLexeme? {cs : List Char} {n : Nat} (h : firstLexeme? cs = some (none, n)) :
    (∀ c ∈ cs.take n, Text.isBlank c) ∧
      ∀ c, (cs.drop n).head? = some c → Text.isBlank c = false := by
  have hrun := @length?_of_firstLexeme? _ ⟨none, someRunLength? Text.isBlank⟩ _
    (by simp [table_eq]) h
  obtain ⟨xs, rest, rfl, rfl, -, hall, hrest⟩ := someRunLength?_split hrun
  rw [List.take_left, List.drop_left]
  exact ⟨hall, hrest⟩

/-! ## Numbers that are too large -/

/-- The text is that of a number that its representation cannot hold. -/
inductive TooLarge : Kind → List Char → Prop
  | int {text : List Char} : IntText text → Int64.maxValue.toInt < Decimal.ofDigits text →
    TooLarge .int text
  | hex {x : Char} {digits : List Char} {n : Nat} : HexText ('0' :: x :: digits) →
    hexValueFrom 0 digits = some n → UInt64.size ≤ n → TooLarge .hex ('0' :: x :: digits)
  | float {numeral suffix : List Char} {n : Decimal.Numeral} : FloatText (numeral ++ suffix) →
    (∀ c ∈ suffix, isFloatSuffix c) → Decimal.Numeral.unsigned? false numeral = some n →
      n.toFloat.isFinite = false → TooLarge .float (numeral ++ suffix)

theorem IntText.tooLarge {text : List Char} (h : IntText text)
    (hnone : Decimal.int64? text = none) : TooLarge .int text := by
  apply TooLarge.int h
  rw [Decimal.int64?, Decimal.integer?_digits h.ne_nil h.digits, Option.bind_some,
    Decimal.fitInt64] at hnone
  split at hnone
  · cases hnone
  · next hfit =>
    have hmin : Int64.minValue.toInt ≤ 0 := by decide
    omega

theorem hexValueFrom_isSome {digits : List Char} (h : ∀ c ∈ digits, (hexDigit? c).isSome)
    (sofar : Nat) : ∃ n, hexValueFrom sofar digits = some n := by
  induction digits generalizing sofar with
  | nil => exact ⟨sofar, rfl⟩
  | cons c digits ih =>
    obtain ⟨hc, hdigits⟩ := List.forall_mem_cons.1 h
    obtain ⟨d, hd⟩ := Option.isSome_iff_exists.1 hc
    rw [hexValueFrom, hd, Option.bind_some]
    exact ih hdigits _

/-- A hexadecimal literal has the value of the digits behind its mark. -/
theorem hex?_digits {x : Char} {digits : List Char} (hx : x = 'x' ∨ x = 'X') (hne : digits ≠ []) :
    hex? ('0' :: x :: digits) = (hexValueFrom 0 digits).bind Decimal.fitUInt64 := by
  obtain ⟨d, more, rfl⟩ := List.exists_cons_of_ne_nil hne
  have htwo : afterTwoBytes? ('0' :: x :: d :: more) = some (d :: more) := by
    rcases hx with rfl | rfl <;> rfl
  rw [hex?, htwo]

theorem HexText.tooLarge {text : List Char} (h : HexText text) (hnone : hex? text = none) :
    TooLarge .hex text := by
  have htext := h
  cases h with
  | @intro x digits hx hne hall =>
    obtain ⟨n, hn⟩ := hexValueFrom_isSome hall 0
    rw [hex?_digits hx hne, hn, Option.bind_some, Decimal.fitUInt64] at hnone
    split at hnone
    · cases hnone
    · next hfit => exact .hex htext hn (Nat.le_of_not_lt hfit)

/-! ## Floating point numbers that are too large -/

theorem ExponentText.exponent? {text : List Char} (h : ExponentText text) :
    ∃ e, Decimal.Numeral.exponent? text = some e := by
  cases h with
  | plain he hne hall =>
    rw [Decimal.Numeral.exponent?, if_pos he]
    exact ⟨_, Decimal.integer?_digits hne hall⟩
  | @signed e sign digits he hsign hne hall =>
    have hread := Decimal.natural?_digits hne hall
    rw [Decimal.Numeral.exponent?, if_pos he]
    rcases hsign with rfl | rfl <;> rw [Decimal.integer?, hread] <;> exact ⟨_, rfl⟩

theorem ExponentText.head {text : List Char} (h : ExponentText text) :
    ∀ c, text.head? = some c → c.isDigit = false ∧ c ≠ '.' := by
  cases h with
  | plain he _ _ | signed he _ _ _ =>
    rintro _ ⟨⟩
    rcases he with rfl | rfl <;> decide

/-- No suffix letter stands at the end of a text. -/
def Unsuffixed (text : List Char) : Prop :=
  ∀ c, text.getLast? = some c → isFloatSuffix c = false

theorem not_isFloatSuffix_of_isDigit {c : Char} (h : c.isDigit) : isFloatSuffix c = false := by
  rw [← Bool.not_eq_true, isFloatSuffix_iff]
  rintro (rfl | rfl | rfl | rfl) <;> exact absurd h (by decide)

theorem unsuffixed_digits {text : List Char} (h : ∀ c ∈ text, c.isDigit ∨ c = '.') :
    Unsuffixed text := by
  intro c hc
  rcases h c (List.mem_of_getLast? hc) with hdigit | rfl
  · exact not_isFloatSuffix_of_isDigit hdigit
  · decide

/-- An exponent ends with a digit. -/
theorem ExponentText.unsuffixed {text : List Char} (h : ExponentText text) (front : List Char) :
    Unsuffixed (front ++ text) := by
  have hdigits {digits : List Char} (before : List Char) (hne : digits ≠ [])
      (hall : ∀ c ∈ digits, c.isDigit) : Unsuffixed (before ++ digits) := by
    intro c hc
    rw [List.getLast?_append_of_ne_nil _ hne] at hc
    exact not_isFloatSuffix_of_isDigit (hall c (List.mem_of_getLast? hc))
  cases h with
  | @plain e digits _ hne hall =>
    have h := hdigits (front ++ [e]) hne hall
    rwa [List.append_assoc] at h
  | @signed e sign digits _ _ hne hall =>
    have h := hdigits (front ++ [e, sign]) hne hall
    rwa [List.append_assoc] at h

/-- A scale is an exponent, or nothing, and suffix letters behind it. -/
theorem ScaleText.split {scale : List Char} (h : ScaleText scale) :
    ∃ tail suffix e, scale = tail ++ suffix ∧ (∀ c ∈ suffix, isFloatSuffix c) ∧
      Decimal.Numeral.exponent? tail = some e ∧
      (∀ c, tail.head? = some c → c.isDigit = false ∧ c ≠ '.') ∧
      ∀ front, Unsuffixed front → Unsuffixed (front ++ tail) := by
  have hnil : Decimal.Numeral.exponent? [] = some 0 := rfl
  have hkeep (front : List Char) (hfront : Unsuffixed front) : Unsuffixed (front ++ []) := by
    rwa [List.append_nil]
  cases h with
  | exponent h =>
    obtain ⟨e, he⟩ := h.exponent?
    exact ⟨_, [], e, by simp, by simp, he, h.head, fun front _ => h.unsuffixed front⟩
  | @suffixed text c h hc =>
    obtain ⟨e, he⟩ := h.exponent?
    exact ⟨text, [c], e, rfl, by simpa using hc, he, h.head, fun front _ => h.unsuffixed front⟩
  | @suffix c hc => exact ⟨[], [c], 0, rfl, by simpa using hc, hnil, by simp, hkeep⟩
  | none => exact ⟨[], [], 0, rfl, by simp, hnil, by simp, hkeep⟩

/-- A floating point literal is a numeral and suffix letters behind it. -/
theorem FloatText.split {text : List Char} (h : FloatText text) :
    ∃ numeral suffix n, text = numeral ++ suffix ∧ (∀ c ∈ suffix, isFloatSuffix c) ∧
      Unsuffixed numeral ∧ Decimal.Numeral.unsigned? false numeral = some n := by
  cases h with
  | @pointed whole fraction scale hwhole hfraction hne hscale =>
    obtain ⟨tail, suffix, e, rfl, hsuffix, he, hhead, hkeep⟩ := hscale.split
    have hread := Decimal.Numeral.unsigned?_pointed hwhole hfraction hne
      (fun c hc => (hhead c hc).1) he false
    have hfront : Unsuffixed (whole ++ '.' :: fraction) := by
      apply unsuffixed_digits
      intro c hc
      rcases List.mem_append.1 hc with hc | hc
      · exact .inl (hwhole c hc)
      · rcases List.mem_cons.1 hc with rfl | hc
        · exact .inr rfl
        · exact .inl (hfraction c hc)
    refine ⟨whole ++ '.' :: (fraction ++ tail), suffix, _, by simp, hsuffix, ?_, hread⟩
    simpa using hkeep _ hfront
  | @scaled whole scale hne hwhole hscale _ =>
    obtain ⟨tail, suffix, e, rfl, hsuffix, he, hhead, hkeep⟩ := hscale.split
    have hread := Decimal.Numeral.unsigned?_whole hwhole hne hhead he false
    have hfront : Unsuffixed whole := unsuffixed_digits fun c hc => .inl (hwhole c hc)
    exact ⟨whole ++ tail, suffix, _, by simp, hsuffix, hkeep _ hfront, hread⟩

/-- Suffix letters do not count. -/
theorem dropWhile_suffix {numeral suffix : List Char} (hsuffix : ∀ c ∈ suffix, isFloatSuffix c)
    (hnumeral : Unsuffixed numeral) :
    ((numeral ++ suffix).reverse.dropWhile isFloatSuffix).reverse = numeral := by
  have hreverse : ∀ c ∈ suffix.reverse, isFloatSuffix c := by simpa using hsuffix
  rw [List.reverse_append, List.dropWhile_append_of_pos hreverse]
  cases hlast : numeral.reverse with
  | nil => simpa using hlast.symm
  | cons c front =>
    have hc : isFloatSuffix c = false := by
      apply hnumeral
      rw [List.getLast?_eq_head?_reverse, hlast]
      rfl
    rw [List.dropWhile_cons_of_neg (by simp [hc]), ← hlast, List.reverse_reverse]

/-- A floating point literal has the value of its numeral, if that is finite. -/
theorem FloatText.float? {text : List Char} (h : FloatText text) :
    ∃ numeral suffix n, text = numeral ++ suffix ∧ (∀ c ∈ suffix, isFloatSuffix c) ∧
      Decimal.Numeral.unsigned? false numeral = some n ∧
      Token.float? text = (some n.toFloat).filter Float.isFinite := by
  obtain ⟨c, rest, hcons, hc⟩ := h.head
  obtain ⟨numeral, suffix, n, rfl, hsuffix, hnumeral, hn⟩ := h.split
  refine ⟨numeral, suffix, n, rfl, hsuffix, hn, ?_⟩
  have hsign : ∀ d, numeral.head? = some d → d ≠ '-' ∧ d ≠ '+' := by
    intro d hd
    obtain ⟨more, rfl⟩ := List.head?_eq_some_iff.1 hd
    cases hcons
    constructor <;>
    · rintro rfl
      revert hc
      decide
  rw [Token.float?, dropWhile_suffix hsuffix hnumeral, Decimal.float?_of_head hsign,
    Decimal.unsignedFloat?, hn]

theorem FloatText.tooLarge {text : List Char} (h : FloatText text)
    (hnone : Token.float? text = none) : TooLarge .float text := by
  obtain ⟨numeral, suffix, n, rfl, hsuffix, hn, hvalue⟩ := h.float?
  refine .float h hsuffix hn ?_
  rw [hvalue] at hnone
  simpa using hnone

/-- A scan stops in front of a number that is too large. -/
theorem Found.tooLarge {t : Token} (h : t.Found) (hstop : Scan.stopsAt t) :
    TooLarge t.kind t.text.toList := by
  unfold Scan.stopsAt payload? at hstop
  cases hkind : t.kind <;> simp only [hkind, Kind.isNumeric, Bool.false_and, Bool.false_eq_true,
    Bool.true_and, Option.isNone_map, Option.isNone_iff_eq_none] at hstop
  case int => exact (h.intText hkind).tooLarge hstop
  case hex => exact (h.hexText hkind).tooLarge hstop
  case float => exact (h.floatText hkind).tooLarge hstop

end Token

/-! ## Where a scan stops and what it finds -/

namespace Scan

open Token (LexemeClass TooLarge firstLexeme?)

/-- In a text that `offset` characters precede, the token stands where its offset says, and it is
what is found there first. -/
def FoundIn (offset : Nat) (cs : List Char) (t : Token) : Prop :=
  ∃ before after, cs = before ++ (t.text.toList ++ after) ∧ t.offset = offset + before.length ∧
    firstLexeme? (t.text.toList ++ after) = some (some t.kind, t.text.toList.length)

/-- What is found behind some characters of a text is found in the text. -/
theorem FoundIn.of_drop {offset n : Nat} {cs : List Char} {t : Token} (hn : n ≤ cs.length)
    (h : FoundIn (offset + n) (cs.drop n) t) : FoundIn offset cs t := by
  obtain ⟨before, after, hcs, hoffset, hfirst⟩ := h
  refine ⟨cs.take n ++ before, after, ?_, ?_, hfirst⟩
  · rw [List.append_assoc, ← hcs, List.take_append_drop]
  · rw [hoffset, List.length_append, List.length_take_of_le hn, Nat.add_assoc]

theorem FoundIn.found {offset : Nat} {cs : List Char} {t : Token} (h : FoundIn offset cs t) :
    t.Found := by
  obtain ⟨_, after, -, -, hfirst⟩ := h
  have hne := List.length_pos_iff.1 (Token.advances_firstLexeme? hfirst).1
  exact ⟨⟨_, _, hfirst, List.take_left.symm⟩, hne⟩

/-- Every token of a scan is found in the text. -/
theorem found_of_mem {offset : Nat} {cs : List Char} {t : Token}
    (h : t ∈ (textFrom offset cs).tokens) : FoundIn offset cs t := by
  fun_induction textFrom offset cs with
  | case1 | case2 | case3 | case5 => cases h
  | case4 offset c rest n hfound ih =>
    exact FoundIn.of_drop (Token.advances_firstLexeme? hfound).2 (ih h)
  | case6 offset c rest kind n hfound token hstop ih =>
    have hle := (Token.advances_firstLexeme? hfound).2
    rcases List.mem_cons.1 h with rfl | h
    · have hlength : (c :: rest.take n).length = n + 1 := List.length_take_of_le hle
      refine ⟨[], rest.drop n, by simp [token], rfl, ?_⟩
      simpa [token, hlength] using hfound
    · exact FoundIn.of_drop hle (ih h)

/-- Where a scan stops: at the end of the text, where no lexeme starts, or in front of a number that
is too large. -/
inductive Stops : List Char → Prop
  | done : Stops []
  | nothing {cs : List Char} : (∀ lexeme ∈ LexemeClass.table, lexeme.length? cs = none) → Stops cs
  | number {cs : List Char} {kind : Token.Kind} {n : Nat} :
    firstLexeme? cs = some (some kind, n) → TooLarge kind (cs.take n) → Stops cs

/-- A text that `offset` characters precede is cut into blanks, tokens and a residue: a run of
blanks and what stops the scan, or a run of blanks, a token and what is cut further. -/
inductive Cuts : Nat → List Char → Scan → Prop
  | stop {offset : Nat} {gap residue : List Char} : (∀ c ∈ gap, Text.isBlank c) →
    Stops residue → Cuts offset (gap ++ residue) ⟨[], String.ofList residue, offset + gap.length⟩
  | token {offset : Nat} {gap text rest : List Char} {kind : Token.Kind} {s : Scan} :
    (∀ c ∈ gap, Text.isBlank c) → text ≠ [] → Cuts (offset + gap.length + text.length) rest s →
      Cuts offset (gap ++ (text ++ rest))
        (s.push ⟨kind, String.ofList text, offset + gap.length⟩)

theorem Cuts.halt {offset : Nat} {cs : List Char} (h : Stops cs) :
    Cuts offset cs ⟨[], String.ofList cs, offset⟩ :=
  .stop (List.forall_mem_nil _) h

/-- Blanks in front make the first run longer. -/
theorem Cuts.blanks {offset : Nat} {blanks cs : List Char} {s : Scan}
    (hblanks : ∀ c ∈ blanks, Text.isBlank c) (h : Cuts (offset + blanks.length) cs s) :
    Cuts offset (blanks ++ cs) s := by
  generalize hstart : offset + blanks.length = start at h
  cases h with
  | @stop _ gap residue hgap hstops =>
    have hcut := @Cuts.stop offset (blanks ++ gap) residue
      (List.forall_mem_append.2 ⟨hblanks, hgap⟩) hstops
    rwa [List.length_append, ← Nat.add_assoc, hstart, List.append_assoc] at hcut
  | @token _ gap text rest kind s hgap hne hrest =>
    have hlength : offset + (blanks ++ gap).length = start + gap.length := by
      rw [List.length_append, ← Nat.add_assoc, hstart]
    have hcut := @Cuts.token offset (blanks ++ gap) text rest kind s
      (List.forall_mem_append.2 ⟨hblanks, hgap⟩) hne (by rwa [hlength])
    rwa [hlength, List.append_assoc] at hcut

/-- A scan cuts its text. -/
theorem textFrom_cuts (offset : Nat) (cs : List Char) : Cuts offset cs (textFrom offset cs) := by
  fun_induction textFrom offset cs with
  | case1 offset => exact .halt .done
  | case2 offset c rest hnone => exact .halt (.nothing (Token.firstLexeme?_eq_none_iff.1 hnone))
  | case3 offset c rest kind? hfound =>
    exact absurd (Token.advances_firstLexeme? hfound).1 (Nat.lt_irrefl 0)
  | case4 offset c rest n hfound ih =>
    have hblanks := (Token.isBlank_of_firstLexeme? hfound).1
    have hle := (Token.advances_firstLexeme? hfound).2
    rw [← List.take_append_drop (n + 1) (c :: rest)]
    apply Cuts.blanks hblanks
    rwa [List.length_take_of_le hle]
  | case5 offset c rest kind n hfound token hstop =>
    have htoken : token.Found :=
      ⟨⟨c :: rest, n + 1, hfound, String.toList_ofList⟩, by simp [token]⟩
    have htooLarge := htoken.tooLarge hstop
    rw [String.toList_ofList] at htooLarge
    exact .halt (.number hfound htooLarge)
  | case6 offset c rest kind n hfound token hstop ih =>
    have hle := (Token.advances_firstLexeme? hfound).2
    have hlength : (c :: rest.take n).length = n + 1 := List.length_take_of_le hle
    have hcut := @Cuts.token offset [] (c :: rest.take n) (rest.drop n) kind _
      (List.forall_mem_nil _) (List.cons_ne_nil _ _) (by rw [hlength]; exact ih)
    rwa [List.nil_append, List.cons_append, List.take_append_drop] at hcut

/-! ## Whole scans -/

/-- A run of blanks and the token behind it. -/
structure Piece where
  gap : List Char
  token : Token

def Piece.text (p : Piece) : List Char :=
  p.gap ++ p.token.text.toList

/-- The pieces, the last run of blanks and the residue of a scan are all of a text that `offset`
characters precede. -/
structure Lossless (offset : Nat) (cs : List Char) (s : Scan) (pieces : List Piece)
    (last : List Char) : Prop where
  tokens_eq : s.tokens = pieces.map Piece.token
  text_eq : cs = pieces.flatMap Piece.text ++ (last ++ s.residue.toList)
  gap_blank : ∀ p ∈ pieces, ∀ c ∈ p.gap, Text.isBlank c
  last_blank : ∀ c ∈ last, Text.isBlank c
  text_ne : ∀ p ∈ pieces, p.token.text ≠ ""
  offset_eq : ∀ before p after, pieces = before ++ p :: after →
    p.token.offset = offset + (before.flatMap Piece.text ++ p.gap).length
  residueOffset_eq : s.residueOffset = offset + (pieces.flatMap Piece.text ++ last).length
  stops : Stops s.residue.toList

/-- A text that is cut is cut without a loss. -/
theorem Cuts.lossless {offset : Nat} {cs : List Char} {s : Scan} (h : Cuts offset cs s) :
    ∃ pieces last, Lossless offset cs s pieces last := by
  induction h with
  | @stop offset gap residue hgap hstops =>
    refine ⟨[], gap, ?_⟩
    constructor
    case tokens_eq => rfl
    case text_eq => simp
    case gap_blank => exact List.forall_mem_nil _
    case last_blank => exact hgap
    case text_ne => exact List.forall_mem_nil _
    case offset_eq => simp
    case residueOffset_eq => simp
    case stops => rwa [String.toList_ofList]
  | @token offset gap text rest kind s hgap hne _ ih =>
    obtain ⟨pieces, last, hrest⟩ := ih
    let first : Piece := ⟨gap, ⟨kind, String.ofList text, offset + gap.length⟩⟩
    have htext : first.text = gap ++ text := by simp [first, Piece.text]
    refine ⟨first :: pieces, last, ?_⟩
    constructor
    case tokens_eq => exact congrArg (first.token :: ·) hrest.tokens_eq
    case text_eq =>
      rw [List.flatMap_cons, htext, hrest.text_eq]
      simp [push]
    case gap_blank => exact List.forall_mem_cons.2 ⟨hgap, hrest.gap_blank⟩
    case last_blank => exact hrest.last_blank
    case text_ne =>
      refine List.forall_mem_cons.2 ⟨?_, hrest.text_ne⟩
      simpa [first] using hne
    case offset_eq =>
      intro before p after heq
      cases before with
      | nil =>
        cases heq
        rfl
      | cons q before =>
        cases heq
        rw [hrest.offset_eq before p after rfl, List.flatMap_cons, htext]
        simp only [List.length_append]
        omega
    case residueOffset_eq =>
      show s.residueOffset = _
      rw [hrest.residueOffset_eq, List.flatMap_cons, htext]
      simp only [List.length_append]
      omega
    case stops => exact hrest.stops

/-- **Scanning loses nothing.** A text is runs of blanks and tokens in turn, one more run of blanks
and the residue. No token is empty, its offset is the number of characters in front of it, and so
is that of the residue. If there is a residue, no lexeme starts it or the first one is a number
that its representation cannot hold. -/
theorem text_lossless (s : String) :
    ∃ (pieces : List Piece) (last : List Char),
      (text s).tokens = pieces.map Piece.token ∧
      s.toList = pieces.flatMap Piece.text ++ (last ++ (text s).residue.toList) ∧
      (∀ p ∈ pieces, p.token.text ≠ "" ∧ ∀ c ∈ p.gap, Text.isBlank c) ∧
      (∀ c ∈ last, Text.isBlank c) ∧
      (∀ before p after, pieces = before ++ p :: after →
        p.token.offset = (before.flatMap Piece.text ++ p.gap).length) ∧
      (text s).residueOffset = (pieces.flatMap Piece.text ++ last).length ∧
      ((text s).residue ≠ "" →
        (∀ lexeme ∈ LexemeClass.table, lexeme.length? (text s).residue.toList = none) ∨
        ∃ kind n, firstLexeme? (text s).residue.toList = some (some kind, n) ∧
          TooLarge kind ((text s).residue.toList.take n)) := by
  obtain ⟨pieces, last, h⟩ := (textFrom_cuts 0 s.toList).lossless
  refine ⟨pieces, last, h.tokens_eq, h.text_eq, ?_, h.last_blank, ?_, ?_, ?_⟩
  · intro p hp
    exact ⟨h.text_ne p hp, h.gap_blank p hp⟩
  · intro before p after heq
    rw [h.offset_eq before p after heq, Nat.zero_add]
  · rw [text, h.residueOffset_eq, Nat.zero_add]
  · intro hne
    have hstops : Stops (text s).residue.toList := h.stops
    generalize hresidue : (text s).residue.toList = residue at hstops
    cases hstops with
    | done =>
      rw [String.toList_eq_nil_iff] at hresidue
      exact absurd hresidue hne
    | nothing hnone => exact .inl hnone
    | number hfound hlarge => exact .inr ⟨_, _, hfound, hlarge⟩

end Scan

end MessageSelector
