import MessageSelector.Proofs.Digits
import MessageSelector.Proofs.Lexemes

/-!
# Numbers in another context

The shapes of the texts that are scanned as numbers (`HexText`, `FloatText`, `IntText`). A text of
such a shape is scanned as the same number wherever a blank, a closing bracket, a comma or nothing
follows it (`firstLexeme?_hex`, `firstLexeme?_float`, `firstLexeme?_int`).
-/

namespace MessageSelector.Token

open LexemeClass (keywords literals)

/-- The characters of the property White_Space. -/
def blanks : List Char :=
  Text.blankRanges.flatMap fun range =>
    (List.range' range.1 (range.2 + 1 - range.1)).map Char.ofNat

theorem mem_blanks {c : Char} (h : Text.isBlank c) : c ∈ blanks := by
  obtain ⟨range, hmem, hrange⟩ := List.any_eq_true.1 h
  rw [Bool.and_eq_true, decide_eq_true_iff, decide_eq_true_iff] at hrange
  refine List.mem_flatMap.2 ⟨range, hmem, List.mem_map.2 ⟨c.toNat, ?_, c.ofNat_toNat⟩⟩
  rw [List.mem_range'_1]
  omega

/-- No character of a class without blanks is a blank. -/
theorem not_isBlank_of {p : Char → Bool} (hp : blanks.all (!p ·)) {c : Char} (hc : p c) :
    Text.isBlank c = false := by
  rw [← Bool.not_eq_true]
  intro hblank
  have hnot := List.all_eq_true.1 hp c (mem_blanks hblank)
  rw [hc] at hnot
  cases hnot

/-- The characters that end every lexeme in front of them. -/
def enders : List Char :=
  ')' :: ',' :: blanks

/-- What follows a lexeme does not go on with it: a blank, a closing bracket, a comma or nothing. -/
def Ends (rest : List Char) : Prop :=
  ∀ c, rest.head? = some c → c ∈ enders

theorem Ends.head {rest : List Char} (h : Ends rest) {p : Char → Bool}
    (hp : enders.all (!p ·)) : ∀ c, rest.head? = some c → p c = false := by
  intro c hc
  simpa using List.all_eq_true.1 hp c (h c hc)

theorem Ends.of_isBlank {rest : List Char} (h : ∀ c, rest.head? = some c → Text.isBlank c) :
    Ends rest := by
  intro c hc
  exact List.mem_cons_of_mem _ (List.mem_cons_of_mem _ (mem_blanks (h c hc)))

/-! ## First characters -/

theorem starts_of_isDigit {c : Char} (h : c.isDigit) :
    Text.isBlank c = false ∧ startsKeyword c = false ∧ startsSymbol c = false := by
  obtain ⟨d, hd, rfl⟩ := Decimal.eq_digitChar_of_isDigit h
  clear h
  revert d
  decide

/-! ## Hexadecimal integers -/

/-- The text of a hexadecimal integer. -/
inductive HexText : List Char → Prop
  | intro {x : Char} {digits : List Char} : x = 'x' ∨ x = 'X' → digits ≠ [] →
    (∀ c ∈ digits, (hexDigit? c).isSome) → HexText ('0' :: x :: digits)

theorem hexLength?_split {cs : List Char} {n : Nat} (h : hexLength? cs = some n) :
    ∃ text rest, cs = text ++ rest ∧ n = text.length ∧ HexText text := by
  rw [hexLength?.eq_def] at h
  split at h
  · next x rest =>
    split at h
    · next hx =>
      obtain ⟨m, hm, rfl⟩ := Option.map_eq_some_iff.1 h
      obtain ⟨digits, rest, rfl, rfl, hne, hall, -⟩ := someRunLength?_split hm
      exact ⟨'0' :: x :: digits, rest, rfl, rfl, .intro hx hne hall⟩
    · cases h
  · cases h

theorem hexLength?_append {text rest : List Char} (h : HexText text)
    (hrest : ∀ c, rest.head? = some c → (hexDigit? c).isSome = false) :
    hexLength? (text ++ rest) = some text.length := by
  cases h with
  | intro hx hne hall =>
    rw [List.cons_append, List.cons_append, hexLength?, if_pos hx,
      someRunLength?_append hne hall hrest]
    rfl

/-- No hexadecimal integer starts where the second character is not its mark. -/
theorem hexLength?_eq_none {cs : List Char} (h : ∀ c, cs[1]? = some c → c ≠ 'x' ∧ c ≠ 'X') :
    hexLength? cs = none := by
  rw [hexLength?.eq_def]
  split
  · next x rest =>
    have hx := h x rfl
    rw [if_neg (by simp [hx])]
  · rfl

theorem firstLexeme?_hex {text rest : List Char} (h : HexText text)
    (hrest : ∀ c, rest.head? = some c → (hexDigit? c).isSome = false) :
    firstLexeme? (text ++ rest) = some (some .hex, text.length) := by
  have hlength := hexLength?_append h hrest
  cases h with
  | intro hx hne hall =>
    refine @firstLexeme?_of_literal '0' _ ⟨some .hex, hexLength?⟩ _ [⟨some .string, stringLength?⟩]
      _ (by decide) (keywords_none (by decide) _) (by decide) rfl ?_ hlength
    simp [stringLength?]

/-! ## Exponents and suffixes -/

/-- The text of an exponent. -/
inductive ExponentText : List Char → Prop
  | plain {e : Char} {digits : List Char} : e = 'e' ∨ e = 'E' → digits ≠ [] →
    (∀ c ∈ digits, c.isDigit) → ExponentText (e :: digits)
  | signed {e sign : Char} {digits : List Char} : e = 'e' ∨ e = 'E' → sign = '+' ∨ sign = '-' →
    digits ≠ [] → (∀ c ∈ digits, c.isDigit) → ExponentText (e :: sign :: digits)

theorem exponentLength?_append {text rest : List Char} (h : ExponentText text)
    (hrest : ∀ c, rest.head? = some c → c.isDigit = false) :
    exponentLength? (text ++ rest) = some text.length := by
  cases h with
  | @plain e digits he hne hall =>
    have hlength := someRunLength?_append hne hall hrest
    cases digits with
    | nil => exact absurd rfl hne
    | cons d digits =>
      have hd : d.isDigit := hall d List.mem_cons_self
      -- The first digit is no sign, so only the last of the three forms fits.
      have hsign : d ≠ '+' ∧ d ≠ '-' := by
        constructor <;>
        · rintro rfl
          exact absurd hd (by decide)
      rw [List.cons_append, exponentLength?.eq_def]
      simp only [he, ↓reduceIte, List.cons_append]
      split
      · next heq => exact absurd (List.cons.inj heq).1 hsign.1
      · next heq => exact absurd (List.cons.inj heq).1 hsign.2
      · rw [← List.cons_append, hlength]
        rfl
  | @signed e sign digits he hsign hne hall =>
    have hlength := someRunLength?_append hne hall hrest
    rw [List.cons_append, List.cons_append, exponentLength?.eq_def]
    rcases hsign with rfl | rfl
    · simp only [he, ↓reduceIte, hlength]
      rfl
    · simp only [he, ↓reduceIte, hlength]
      rfl

theorem exponentLength?_eq_none {cs : List Char}
    (h : ∀ c, cs.head? = some c → c ≠ 'e' ∧ c ≠ 'E') : exponentLength? cs = none := by
  cases cs with
  | nil => rfl
  | cons c cs =>
    rw [exponentLength?.eq_def]
    exact if_neg (by simp [h c rfl])

theorem exponentLength?_split {cs : List Char} {n : Nat} (h : exponentLength? cs = some n) :
    ∃ text rest, cs = text ++ rest ∧ n = text.length ∧ ExponentText text := by
  rw [exponentLength?.eq_def] at h
  split at h
  · next e rest =>
    split at h
    · next he =>
      split at h
      all_goals
        obtain ⟨m, hm, rfl⟩ := Option.map_eq_some_iff.1 h
        obtain ⟨digits, rest, rfl, rfl, hne, hall, -⟩ := someRunLength?_split hm
      · exact ⟨e :: '+' :: digits, rest, rfl, rfl, .signed he (.inl rfl) hne hall⟩
      · exact ⟨e :: '-' :: digits, rest, rfl, rfl, .signed he (.inr rfl) hne hall⟩
      · exact ⟨e :: digits, rest, rfl, rfl, .plain he hne hall⟩
    · cases h
  · cases h

/-- The text of an optional exponent and an optional suffix. -/
inductive ScaleText : List Char → Prop
  | exponent {text : List Char} : ExponentText text → ScaleText text
  | suffixed {text : List Char} {c : Char} : ExponentText text → isFloatSuffix c →
    ScaleText (text ++ [c])
  | suffix {c : Char} : isFloatSuffix c → ScaleText [c]
  | none : ScaleText []

theorem isFloatSuffix_iff {c : Char} :
    isFloatSuffix c ↔ c = 'f' ∨ c = 'F' ∨ c = 'd' ∨ c = 'D' := by
  simp [isFloatSuffix, or_assoc]

/-- The length of an optional exponent and an optional suffix. -/
def scaleLength (cs : List Char) : Nat :=
  (exponentLength? cs).getD 0 + suffixLength (cs.drop ((exponentLength? cs).getD 0))

theorem scaledLength_append (text cs : List Char) :
    scaledLength (text ++ cs) text.length = text.length + scaleLength cs := by
  rw [scaledLength, scaleLength, ← List.drop_drop, List.drop_left, Nat.add_assoc]

theorem suffixLength_of_ends {rest : List Char} (h : Ends rest) : suffixLength rest = 0 := by
  cases rest with
  | nil => rfl
  | cons c rest => rw [suffixLength, h.head (p := isFloatSuffix) (by decide) c rfl]; rfl

theorem scaleLength_append {text rest : List Char} (h : ScaleText text) (hrest : Ends rest) :
    scaleLength (text ++ rest) = text.length := by
  have hsuffix {c : Char} (hc : isFloatSuffix c) : c.isDigit = false ∧ c ≠ 'e' ∧ c ≠ 'E' := by
    rcases isFloatSuffix_iff.1 hc with rfl | rfl | rfl | rfl <;> decide
  cases h with
  | exponent he =>
    rw [scaleLength, exponentLength?_append he (hrest.head (by decide)), Option.getD_some,
      List.drop_left, suffixLength_of_ends hrest, Nat.add_zero]
  | @suffixed text c he hc =>
    have hexponent : exponentLength? (text ++ c :: rest) = some text.length := by
      refine exponentLength?_append he ?_
      rintro _ ⟨⟩
      exact (hsuffix hc).1
    rw [List.append_assoc, List.singleton_append, scaleLength, hexponent, Option.getD_some,
      List.drop_left, suffixLength, if_pos hc, List.length_append, List.length_singleton]
  | @suffix c hc =>
    have hexponent : exponentLength? (c :: rest) = none := by
      refine exponentLength?_eq_none ?_
      rintro _ ⟨⟩
      exact (hsuffix hc).2
    rw [List.singleton_append, scaleLength, hexponent, Option.getD_none, List.drop_zero,
      suffixLength, if_pos hc, List.length_singleton]
  | none =>
    have hexponent : exponentLength? rest = none := by
      refine exponentLength?_eq_none fun c hc => ?_
      have hmark := hrest.head (p := fun c => c = 'e' || c = 'E') (by decide) c hc
      simpa using hmark
    rw [List.nil_append, scaleLength, hexponent, Option.getD_none, List.drop_zero,
      suffixLength_of_ends hrest, List.length_nil]

/-- The suffix at the start of a text, if there is one. -/
theorem suffixLength_split (cs : List Char) :
    (suffixLength cs = 0) ∨ ∃ c rest, cs = c :: rest ∧ isFloatSuffix c ∧ suffixLength cs = 1 := by
  cases cs with
  | nil => exact .inl rfl
  | cons c rest =>
    by_cases hc : isFloatSuffix c
    · exact .inr ⟨c, rest, rfl, hc, if_pos hc⟩
    · exact .inl (if_neg hc)

theorem scaleLength_split (cs : List Char) :
    ∃ text rest, cs = text ++ rest ∧ scaleLength cs = text.length ∧ ScaleText text := by
  rw [scaleLength]
  cases hexponent : exponentLength? cs with
  | none =>
    rw [Option.getD_none, List.drop_zero, Nat.zero_add]
    rcases suffixLength_split cs with hzero | ⟨c, rest, rfl, hc, hone⟩
    · exact ⟨[], cs, rfl, hzero, .none⟩
    · exact ⟨[c], rest, rfl, hone, .suffix hc⟩
  | some m =>
    obtain ⟨text, rest, rfl, rfl, he⟩ := exponentLength?_split hexponent
    rw [Option.getD_some, List.drop_left]
    rcases suffixLength_split rest with hzero | ⟨c, rest, rfl, hc, hone⟩
    · exact ⟨text, rest, rfl, by rw [hzero, Nat.add_zero], .exponent he⟩
    · exact ⟨text ++ [c], rest, by simp, by rw [hone, List.length_append]; rfl, .suffixed he hc⟩

/-! ## Floating point numbers -/

/-- The text of a floating point number. -/
inductive FloatText : List Char → Prop
  | pointed {whole fraction scale : List Char} : (∀ c ∈ whole, c.isDigit) →
    (∀ c ∈ fraction, c.isDigit) → ¬ (whole = [] ∧ fraction = []) → ScaleText scale →
      FloatText (whole ++ '.' :: (fraction ++ scale))
  | scaled {whole scale : List Char} : whole ≠ [] → (∀ c ∈ whole, c.isDigit) →
    ScaleText scale → scale ≠ [] → FloatText (whole ++ scale)

/-- A scale starts with a letter. -/
theorem ScaleText.head {text : List Char} (h : ScaleText text) (hne : text ≠ []) :
    ∃ c rest, text = c :: rest ∧ (c = 'e' ∨ c = 'E' ∨ isFloatSuffix c) := by
  have hexponent {text : List Char} (he : ExponentText text) :
      ∃ c rest, text = c :: rest ∧ (c = 'e' ∨ c = 'E') := by
    cases he with
    | plain he _ _ | signed he _ _ _ => exact ⟨_, _, rfl, he⟩
  cases h with
  | exponent he =>
    obtain ⟨c, rest, rfl, hc⟩ := hexponent he
    exact ⟨c, rest, rfl, by rw [← or_assoc]; exact .inl hc⟩
  | suffixed he _ =>
    obtain ⟨c, rest, rfl, hc⟩ := hexponent he
    exact ⟨c, _, rfl, by rw [← or_assoc]; exact .inl hc⟩
  | suffix hc => exact ⟨_, _, rfl, .inr (.inr hc)⟩
  | none => exact absurd rfl hne

/-- A scale is found if an exponent or a suffix is. -/
theorem scaleLength_pos_iff {cs : List Char} :
    0 < scaleLength cs ↔ (exponentLength? cs).isSome ∨ suffixLength cs = 1 := by
  rw [scaleLength]
  cases hexponent : exponentLength? cs with
  | none =>
    rw [Option.getD_none, List.drop_zero, Nat.zero_add]
    rcases suffixLength_split cs with hzero | ⟨_, _, -, -, hone⟩
    · simp [hzero]
    · simp [hone]
  | some m =>
    obtain ⟨text, _, -, rfl, he⟩ := exponentLength?_split hexponent
    have hpos : 0 < text.length := by cases he <;> simp
    simp only [Option.getD_some, Option.isSome_some, true_or, iff_true]
    omega

theorem floatLength?_append {text rest : List Char} (h : FloatText text) (hrest : Ends rest) :
    floatLength? (text ++ rest) = some text.length := by
  -- A scale starts with a letter, and what follows with no digit, so a run of digits ends there.
  have hdigit {scale : List Char} (hscale : ScaleText scale) :
      ∀ c, (scale ++ rest).head? = some c → c.isDigit = false := by
    intro c hc
    by_cases hne : scale = []
    · subst hne
      exact hrest.head (by decide) c hc
    · obtain ⟨c', _, rfl, hmark⟩ := hscale.head hne
      cases hc
      rw [isFloatSuffix_iff] at hmark
      rcases hmark with rfl | rfl | rfl | rfl | rfl | rfl <;> decide
  cases h with
  | @pointed whole fraction scale hwhole hfraction hne hscale =>
    have hcs : whole ++ '.' :: (fraction ++ scale) ++ rest =
        (whole ++ '.' :: fraction) ++ (scale ++ rest) := by simp
    have hlen : (whole ++ '.' :: fraction).length = whole.length + 1 + fraction.length := by
      rw [List.length_append, List.length_cons]
      omega
    have hrun : runLength Char.isDigit (whole ++ '.' :: (fraction ++ (scale ++ rest))) =
        whole.length := runLength_append hwhole (by rintro _ ⟨⟩; decide)
    have hscaled := scaledLength_append (whole ++ '.' :: fraction) (scale ++ rest)
    rw [hlen, scaleLength_append hscale hrest] at hscaled
    rw [hcs, floatLength?, List.append_assoc, List.cons_append, hrun, List.drop_left]
    simp only [runLength_append hfraction (hdigit hscale)]
    rw [if_neg (by simpa using hne), ← List.cons_append, ← List.append_assoc, hscaled]
    simp only [List.length_append, List.length_cons, Option.some.injEq]
    omega
  | @scaled whole scale hne hwhole hscale hscaled =>
    obtain ⟨c, tail, htail, hmark⟩ := hscale.head hscaled
    have hlength := scaleLength_append hscale hrest
    have hpos : 0 < scaleLength (scale ++ rest) := by
      rw [hlength]
      exact List.length_pos_iff.2 hscaled
    rw [List.append_assoc, floatLength?, runLength_append hwhole (hdigit hscale), List.drop_left]
    split
    · next heq =>
      rw [htail] at heq
      cases heq
      rcases hmark with h | h | h <;> exact absurd h (by decide)
    · rw [if_neg (by simpa using hne), if_pos (scaleLength_pos_iff.1 hpos), scaledLength_append,
        hlength, List.length_append]

theorem floatLength?_split {cs : List Char} {n : Nat} (h : floatLength? cs = some n) :
    ∃ text rest, cs = text ++ rest ∧ n = text.length ∧ FloatText text := by
  obtain ⟨whole, rest, rfl, hwhole, hdigits, -⟩ := runLength_split Char.isDigit cs
  rw [floatLength?, hwhole, List.drop_left] at h
  split at h
  · next rest =>
    obtain ⟨fraction, rest, rfl, hfraction, hdigits', -⟩ := runLength_split Char.isDigit rest
    obtain ⟨scale, rest, rfl, hscale, htext⟩ := scaleLength_split rest
    have hlen : (whole ++ '.' :: fraction).length = whole.length + 1 + fraction.length := by
      rw [List.length_append, List.length_cons]
      omega
    have hscaled := scaledLength_append (whole ++ '.' :: fraction) (scale ++ rest)
    rw [hlen, hscale, List.append_assoc, List.cons_append] at hscaled
    simp only [hfraction, hscaled] at h
    split at h
    · cases h
    · next hne =>
      cases h
      refine ⟨whole ++ '.' :: (fraction ++ scale), rest, by simp, ?_, ?_⟩
      · simp only [List.length_append, List.length_cons]
        omega
      · refine .pointed hdigits hdigits' ?_ htext
        rintro ⟨rfl, rfl⟩
        exact hne ⟨rfl, rfl⟩
  · split at h
    · cases h
    · next hne =>
      split at h
      · next hscaled =>
        obtain ⟨scale, rest, rfl, hscale, htext⟩ := scaleLength_split rest
        have hpos := scaleLength_pos_iff.2 hscaled
        rw [hscale] at hpos
        rw [scaledLength_append, hscale] at h
        cases h
        refine ⟨whole ++ scale, rest, by simp, by simp, .scaled ?_ hdigits htext ?_⟩
        · rintro rfl
          exact hne rfl
        · exact List.length_pos_iff.1 hpos
      · cases h

/-- No floating point number starts with anything but a digit or a point. -/
theorem floatLength?_eq_none_of_head {c : Char} {cs : List Char} (hdigit : c.isDigit = false)
    (hpoint : c ≠ '.') : floatLength? (c :: cs) = none := by
  have hrun : runLength Char.isDigit (c :: cs) = 0 := by
    rw [runLength, List.takeWhile_cons_of_neg (by simp [hdigit]), List.length_nil]
  rw [floatLength?, hrun, List.drop_zero]
  split
  · next hcons => exact absurd (List.cons.inj hcons).1 hpoint
  · rfl

/-! ## Decimal integers -/

/-- The text of a decimal integer. -/
structure IntText (text : List Char) : Prop where
  ne_nil : text ≠ []
  digits : ∀ c ∈ text, c.isDigit

theorem intLength?_split {cs : List Char} {n : Nat} (h : someRunLength? Char.isDigit cs = some n) :
    ∃ text rest, cs = text ++ rest ∧ n = text.length ∧ IntText text := by
  obtain ⟨text, rest, hcs, hn, hne, hall, -⟩ := someRunLength?_split h
  exact ⟨text, rest, hcs, hn, hne, hall⟩

/-- No floating point number starts with a decimal integer that ends. -/
theorem floatLength?_eq_none {text rest : List Char} (h : IntText text) (hrest : Ends rest) :
    floatLength? (text ++ rest) = none := by
  have hnone : ¬ 0 < scaleLength rest := by
    have hlength := scaleLength_append .none hrest
    rw [List.nil_append] at hlength
    rw [hlength]
    exact Nat.lt_irrefl _
  rw [floatLength?, runLength_append h.digits (hrest.head (by decide)), List.drop_left]
  split
  · next tail =>
    exact absurd (hrest.head (p := (· = '.')) (by decide) '.' rfl) (by decide)
  · rw [if_neg (by simpa using h.ne_nil), if_neg (mt scaleLength_pos_iff.2 hnone)]

/-! ## Numbers are found again -/

/-- Whether a character can stand in a decimal number. -/
def inNumber (c : Char) : Bool :=
  c.isDigit || ['.', 'e', 'E', '+', '-', 'f', 'F', 'd', 'D'].contains c

theorem inNumber_of_isDigit {c : Char} (h : c.isDigit) : inNumber c := by
  rw [inNumber, h, Bool.true_or]

theorem ExponentText.inNumber {text : List Char} (h : ExponentText text) :
    ∀ c ∈ text, inNumber c := by
  cases h with
  | plain he _ hall =>
    refine List.forall_mem_cons.2 ⟨?_, fun c hc => inNumber_of_isDigit (hall c hc)⟩
    rcases he with rfl | rfl <;> decide
  | signed he hsign _ hall =>
    refine List.forall_mem_cons.2 ⟨?_, List.forall_mem_cons.2 ⟨?_, fun c hc =>
      inNumber_of_isDigit (hall c hc)⟩⟩
    · rcases he with rfl | rfl <;> decide
    · rcases hsign with rfl | rfl <;> decide

theorem ScaleText.inNumber {text : List Char} (h : ScaleText text) :
    ∀ c ∈ text, inNumber c := by
  have hsuffix {c : Char} (hc : isFloatSuffix c) : Token.inNumber c := by
    rcases isFloatSuffix_iff.1 hc with rfl | rfl | rfl | rfl <;> decide
  cases h with
  | exponent he => exact he.inNumber
  | suffixed he hc =>
    exact List.forall_mem_append.2 ⟨he.inNumber, List.forall_mem_singleton.2 (hsuffix hc)⟩
  | suffix hc => exact List.forall_mem_singleton.2 (hsuffix hc)
  | none => exact List.forall_mem_nil _

theorem FloatText.inNumber {text : List Char} (h : FloatText text) :
    ∀ c ∈ text, inNumber c := by
  cases h with
  | pointed hwhole hfraction _ hscale =>
    refine List.forall_mem_append.2 ⟨fun c hc => inNumber_of_isDigit (hwhole c hc),
      List.forall_mem_cons.2 ⟨by decide, List.forall_mem_append.2 ⟨fun c hc => ?_, ?_⟩⟩⟩
    · exact inNumber_of_isDigit (hfraction c hc)
    · exact hscale.inNumber
  | scaled _ hwhole hscale _ =>
    exact List.forall_mem_append.2
      ⟨fun c hc => inNumber_of_isDigit (hwhole c hc), hscale.inNumber⟩

/-- A decimal number starts with a digit or a point. -/
theorem FloatText.head {text : List Char} (h : FloatText text) :
    ∃ c rest, text = c :: rest ∧ (c.isDigit ∨ c = '.') := by
  cases h with
  | @pointed whole _ _ hwhole _ _ _ =>
    cases whole with
    | nil => exact ⟨'.', _, rfl, .inr rfl⟩
    | cons c whole => exact ⟨c, _, rfl, .inl (hwhole c List.mem_cons_self)⟩
  | @scaled whole _ hne hwhole _ _ =>
    cases whole with
    | nil => exact absurd rfl hne
    | cons c whole => exact ⟨c, _, rfl, .inl (hwhole c List.mem_cons_self)⟩

/-- A decimal number that ends is not the start of a hexadecimal one. -/
theorem hexLength?_eq_none_of_inNumber {text rest : List Char} (hne : text ≠ [])
    (h : ∀ c ∈ text, inNumber c) (hrest : Ends rest) : hexLength? (text ++ rest) = none := by
  -- The second character belongs to the number or follows it.
  refine hexLength?_eq_none fun c hc => ?_
  suffices hmark : inNumber c ∨ c ∈ enders by
    constructor <;>
    · rintro rfl
      revert hmark
      decide
  match text, hne with
  | [_], _ =>
    rw [List.singleton_append, List.getElem?_cons_succ, ← List.head?_eq_getElem?] at hc
    exact .inr (hrest c hc)
  | _ :: _ :: _, _ =>
    cases hc
    exact .inl (h c (List.mem_cons_of_mem _ List.mem_cons_self))

/-- No earlier class finds a decimal number that ends. -/
theorem firstLexeme?_of_number {text rest : List Char} {lexeme : LexemeClass} {n : Nat}
    {before after : List LexemeClass} (hhead : ∃ c tail, text = c :: tail ∧ (c.isDigit ∨ c = '.'))
    (h : ∀ c ∈ text, inNumber c) (hrest : Ends rest)
    (hliterals : literals =
      [⟨some .string, stringLength?⟩, ⟨some .hex, hexLength?⟩] ++ before ++ lexeme :: after)
    (hbefore : ∀ l ∈ before, l.length? (text ++ rest) = none)
    (hlength : lexeme.length? (text ++ rest) = some n) :
    firstLexeme? (text ++ rest) = some (lexeme.kind?, n) := by
  obtain ⟨c, tail, rfl, hc⟩ := hhead
  have hhex := hexLength?_eq_none_of_inNumber (List.cons_ne_nil _ _) h hrest
  have hstring : stringLength? (c :: tail ++ rest) = none := by
    have hquote : c ≠ '\'' := by
      rintro rfl
      revert hc
      decide
    exact stringLength?.eq_2 _ fun _ hcons => hquote (List.cons.inj hcons).1
  obtain ⟨hblank, hkeyword, hsymbol⟩ :
      Text.isBlank c = false ∧ startsKeyword c = false ∧ startsSymbol c = false := by
    rcases hc with hc | rfl
    · exact starts_of_isDigit hc
    · decide
  refine firstLexeme?_of_literal hblank (keywords_none hkeyword _) hsymbol hliterals ?_ hlength
  refine List.forall_mem_append.2 ⟨List.forall_mem_cons.2 ⟨hstring, ?_⟩, hbefore⟩
  exact List.forall_mem_singleton.2 hhex

theorem firstLexeme?_float {text rest : List Char} (h : FloatText text) (hrest : Ends rest) :
    firstLexeme? (text ++ rest) = some (some .float, text.length) :=
  @firstLexeme?_of_number _ _ ⟨some .float, floatLength?⟩ _ [] _ h.head h.inNumber hrest rfl
    (List.forall_mem_nil _) (floatLength?_append h hrest)

theorem firstLexeme?_int {text rest : List Char} (h : IntText text) (hrest : Ends rest) :
    firstLexeme? (text ++ rest) = some (some .int, text.length) := by
  have hlength :=
    someRunLength?_append h.ne_nil h.digits (hrest.head (p := Char.isDigit) (by decide))
  have hhead : ∃ c tail, text = c :: tail ∧ (c.isDigit ∨ c = '.') := by
    obtain ⟨c, tail, rfl⟩ := List.exists_cons_of_ne_nil h.ne_nil
    exact ⟨c, tail, rfl, .inl (h.digits c List.mem_cons_self)⟩
  exact @firstLexeme?_of_number _ _ ⟨some .int, someRunLength? Char.isDigit⟩ _
    [⟨some .float, floatLength?⟩] _ hhead (fun c hc => inNumber_of_isDigit (h.digits c hc)) hrest
    rfl (List.forall_mem_singleton.2 (floatLength?_eq_none h hrest)) hlength

end MessageSelector.Token
