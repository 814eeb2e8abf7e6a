import Mathlib.Data.List.Induction
import Mathlib.Data.List.TakeWhile
import Mathlib.Data.Nat.Digits.Defs
import MessageSelector.Proofs.Digits
import MessageSelector.Term.Reader

/-!
# What numerals denote

The texts of numbers, in their own words. `Decimal.spelled` is the number that digits spell,
`Decimal.Signed` relates the text of an integer to it and `Decimal.Floating` the text of a floating
point number to its exact value. `Term.NumberText` says which number of a program a text is: a
floating point number if it has a point or an exponent, otherwise a signed word, and above the
signed words an unsigned one.

The shape of a numeral (`Term.NumeralShape`) is what a reader takes at once
(`Term.numeral_iff`), and a text of this shape is read as the number it is a text of
(`Term.numberText_iff`).
-/

namespace MessageSelector

namespace Decimal

/-! ## Digits -/

/-- The decimal digits in the order of their values. -/
def decimalDigits : List Char :=
  ['0', '1', '2', '3', '4', '5', '6', '7', '8', '9']

/-- The number that decimal digits spell, the first of which counts most. -/
def spelled (digits : List Char) : ℕ :=
  Nat.ofDigits 10 (digits.reverse.map decimalDigits.idxOf)

theorem spelled_append (digits : List Char) (c : Char) :
    spelled (digits ++ [c]) = 10 * spelled digits + decimalDigits.idxOf c := by
  rw [spelled, List.reverse_append, List.reverse_singleton, List.singleton_append, List.map_cons,
    Nat.ofDigits_cons, Nat.add_comm]
  rfl

theorem idxOf_eq_digitValue {c : Char} (h : c.isDigit) : decimalDigits.idxOf c = digitValue c := by
  obtain ⟨d, hd, rfl⟩ := eq_digitChar_of_isDigit h
  clear h
  revert d
  decide

/-- Adding up digits from the first one on gives the number that they spell. -/
theorem ofDigits_eq_spelled {digits : List Char} (h : ∀ c ∈ digits, c.isDigit) :
    ofDigits digits = spelled digits := by
  induction digits using List.reverseRecOn with
  | nil => rfl
  | append_singleton digits c ih =>
    rw [List.forall_mem_append, List.forall_mem_singleton] at h
    rw [ofDigits_append, spelled_append, ih h.1, idxOf_eq_digitValue h.2]

/-- A run of digits with one digit at least. -/
structure IsDigits (cs : List Char) : Prop where
  ne_nil : cs ≠ []
  all : ∀ c ∈ cs, c.isDigit

theorem natural?_eq_some_iff {cs : List Char} {n : ℕ} :
    natural? cs = some n ↔ IsDigits cs ∧ spelled cs = n := by
  constructor
  · intro h
    unfold natural? at h
    split at h
    · next hdigits =>
      have hcs : cs ≠ [] ∧ ∀ c ∈ cs, c.isDigit := by simpa using hdigits
      rw [← ofDigits_eq_spelled hcs.2]
      exact ⟨⟨hcs.1, hcs.2⟩, Option.some.inj h⟩
    · cases h
  · rintro ⟨h, rfl⟩
    rw [natural?_digits h.ne_nil h.all, ofDigits_eq_spelled h.all]

/-- The characters that a floating point numeral has and an integer has not. -/
def IsPointOrMark (c : Char) : Prop :=
  c = '.' ∨ c = 'e' ∨ c = 'E'

/-! ## Integers -/

/-- The text of an integer: digits with an optional sign. -/
inductive Signed : List Char → ℤ → Prop
  | plain {digits : List Char} : IsDigits digits → Signed digits (spelled digits)
  | plus {digits : List Char} : IsDigits digits → Signed ('+' :: digits) (spelled digits)
  | minus {digits : List Char} : IsDigits digits → Signed ('-' :: digits) (-spelled digits)

theorem IsDigits.head_ne_sign {cs : List Char} (h : IsDigits cs) :
    ∀ c, cs.head? = some c → c ≠ '-' ∧ c ≠ '+' := by
  intro c hc
  have hdigit := h.all c (List.mem_of_mem_head? hc)
  constructor <;>
  · rintro rfl
    exact absurd hdigit (by decide)

theorem integer?_eq_some_iff {cs : List Char} {z : ℤ} : integer? cs = some z ↔ Signed cs z := by
  have hdigits {digits : List Char} {n : ℕ} (h : natural? digits = some n) :
      IsDigits digits ∧ spelled digits = n := natural?_eq_some_iff.1 h
  constructor
  · intro h
    unfold integer? at h
    split at h <;> cases hn : natural? _ <;> rw [hn] at h <;> cases h <;>
      obtain ⟨hdigits, rfl⟩ := hdigits hn
    · exact .minus hdigits
    · exact .plus hdigits
    · exact .plain hdigits
  · intro h
    cases h with
    | plain hdigits =>
      rw [integer?_digits hdigits.ne_nil hdigits.all, ofDigits_eq_spelled hdigits.all]
    | plus hdigits | minus hdigits =>
      rw [integer?, natural?_eq_some_iff.2 ⟨hdigits, rfl⟩]
      rfl

theorem int64?_eq_some_iff {cs : List Char} {n : Int64} :
    int64? cs = some n ↔ Signed cs n.toInt := by
  rw [int64?, Option.bind_eq_some_iff, ← integer?_eq_some_iff]
  constructor
  · rintro ⟨z, hz, hfit⟩
    rw [hz, (fitInt64_eq_some.1 hfit).2]
  · exact fun h => ⟨_, h, fitInt64_eq_some.2 ⟨inInt64_toInt n, rfl⟩⟩

theorem uint64?_digits {cs : List Char} (h : IsDigits cs) :
    uint64? cs = fitUInt64 (spelled cs) := by
  rw [uint64?.eq_2, natural?_eq_some_iff.2 ⟨h, rfl⟩, Option.bind_some]
  rintro rest rfl
  exact (h.head_ne_sign '+' rfl).2 rfl

/-- The text of an integer has neither a point nor a mark. -/
theorem IsDigits.not_isPointOrMark {cs : List Char} (h : IsDigits cs) :
    ∀ c ∈ cs, ¬ IsPointOrMark c := by
  intro c hc hpoint
  have hdigit := h.all c hc
  rcases hpoint with rfl | rfl | rfl <;> exact absurd hdigit (by decide)

/-- The text of an integer has neither a point nor a mark. -/
theorem Signed.not_isPointOrMark {cs : List Char} {z : ℤ} (h : Signed cs z) :
    ∀ c ∈ cs, ¬ IsPointOrMark c := by
  cases h with
  | plain hdigits => exact hdigits.not_isPointOrMark
  | plus hdigits | minus hdigits =>
    refine List.forall_mem_cons.2 ⟨?_, hdigits.not_isPointOrMark⟩
    rintro (h | h | h) <;> exact absurd h (by decide)

/-! ## Floating point numbers -/

/-- What may follow the digits of a numeral: nothing, or a mark and an integer. -/
inductive Exponent : List Char → ℤ → Prop
  | none : Exponent [] 0
  | marked {mark : Char} {cs : List Char} {e : ℤ} : mark = 'e' ∨ mark = 'E' → Signed cs e →
    Exponent (mark :: cs) e

/-- The text of `significand · 10 ^ exponent` with a point, an exponent or both, and a digit in
front of the exponent. -/
inductive Floating : List Char → (significand : ℕ) → (exponent : ℤ) → Prop
  | pointed {whole fraction tail : List Char} {e : ℤ} : (∀ c ∈ whole, c.isDigit) →
    (∀ c ∈ fraction, c.isDigit) → whole ++ fraction ≠ [] → Exponent tail e →
    Floating (whole ++ '.' :: (fraction ++ tail)) (spelled (whole ++ fraction))
      (e - fraction.length)
  | marked {whole cs : List Char} {mark : Char} {e : ℤ} : IsDigits whole → mark = 'e' ∨ mark = 'E' →
    Signed cs e → Floating (whole ++ mark :: cs) (spelled whole) e

theorem exponent?_eq_some_iff {cs : List Char} {e : ℤ} :
    Numeral.exponent? cs = some e ↔ Exponent cs e := by
  constructor
  · intro h
    unfold Numeral.exponent? at h
    split at h
    · cases h
      exact .none
    · split at h
      · next hmark => exact .marked hmark (integer?_eq_some_iff.1 h)
      · cases h
  · intro h
    cases h with
    | none => rfl
    | marked hmark h => rw [Numeral.exponent?, if_pos hmark, integer?_eq_some_iff.2 h]

theorem not_isDigit_of_mark {mark : Char} (h : mark = 'e' ∨ mark = 'E') :
    mark.isDigit = false ∧ mark ≠ '.' := by
  rcases h with rfl | rfl <;> decide

theorem Exponent.head_not_isDigit {cs : List Char} {e : ℤ} (h : Exponent cs e) :
    ∀ c, cs.head? = some c → c.isDigit = false := by
  intro c hc
  cases h with
  | none => cases hc
  | marked hmark =>
    cases hc
    exact (not_isDigit_of_mark hmark).1

namespace Floating

variable {cs : List Char} {m : ℕ} {e : ℤ}

theorem exists_isPointOrMark (h : Floating cs m e) : ∃ c ∈ cs, IsPointOrMark c := by
  cases h with
  | pointed => exact ⟨'.', List.mem_append_right _ List.mem_cons_self, .inl rfl⟩
  | marked _ hmark => exact ⟨_, List.mem_append_right _ List.mem_cons_self, .inr hmark⟩

theorem head_ne_sign (h : Floating cs m e) : ∀ c, cs.head? = some c → c ≠ '-' ∧ c ≠ '+' := by
  cases h with
  | @pointed whole _ _ _ hwhole =>
    cases whole with
    | nil =>
      intro c hc
      cases hc
      decide
    | cons d whole =>
      have hdigits : IsDigits (d :: whole) := ⟨List.cons_ne_nil _ _, hwhole⟩
      exact hdigits.head_ne_sign
  | @marked whole _ _ _ hwhole =>
    obtain ⟨d, whole, rfl⟩ := List.exists_cons_of_ne_nil hwhole.ne_nil
    exact hwhole.head_ne_sign

/-- A floating point numeral is read behind either sign. -/
theorem unsigned?_eq (h : Floating cs m e) (negative : Bool) :
    Numeral.unsigned? negative cs = some ⟨negative, m, e⟩ := by
  cases h with
  | @pointed whole fraction _ _ hwhole hfraction hne htail =>
    have hsome : ¬ (whole = [] ∧ fraction = []) := by rwa [← List.append_eq_nil_iff]
    have hall : ∀ c ∈ whole ++ fraction, c.isDigit :=
      List.forall_mem_append.2 ⟨hwhole, hfraction⟩
    rw [Numeral.unsigned?_pointed hwhole hfraction hsome htail.head_not_isDigit
      (exponent?_eq_some_iff.2 htail), ofDigits_eq_spelled hall]
  | @marked whole cs mark _ hwhole hmark he =>
    have hstop : ∀ c, (mark :: cs).head? = some c → c.isDigit = false ∧ c ≠ '.' := by
      intro c hc
      cases hc
      exact not_isDigit_of_mark hmark
    rw [Numeral.unsigned?_whole hwhole.all hwhole.ne_nil hstop
      (exponent?_eq_some_iff.2 (.marked hmark he)), ofDigits_eq_spelled hwhole.all]

/-- What is read as a number and has a point or a mark is a floating point numeral. -/
theorem of_unsigned? {negative : Bool} {n : Numeral} (h : Numeral.unsigned? negative cs = some n)
    (hsome : ∃ c ∈ cs, IsPointOrMark c) : Floating cs n.significand n.exponent := by
  have hall (cs : List Char) : ∀ c ∈ cs.takeWhile Char.isDigit, c.isDigit :=
    fun c hc => List.mem_takeWhile_imp hc
  have hcs : cs.takeWhile Char.isDigit ++ cs.dropWhile Char.isDigit = cs :=
    List.takeWhile_append_dropWhile
  have hwhole := hall cs
  simp only [Numeral.unsigned?] at h
  generalize cs.takeWhile Char.isDigit = whole, cs.dropWhile Char.isDigit = rest at h hcs hwhole
  subst hcs
  split at h
  · next rest =>
    -- The digits behind the point, and what follows them.
    have hrest : rest.takeWhile Char.isDigit ++ rest.dropWhile Char.isDigit = rest :=
      List.takeWhile_append_dropWhile
    have hfraction := hall rest
    generalize rest.takeWhile Char.isDigit = fraction, rest.dropWhile Char.isDigit = tail
      at h hrest hfraction
    subst hrest
    split at h
    · cases h
    · next hne =>
      obtain ⟨e, he, rfl⟩ := Option.map_eq_some_iff.1 h
      have hdigits : ∀ c ∈ whole ++ fraction, c.isDigit :=
        List.forall_mem_append.2 ⟨hwhole, hfraction⟩
      rw [ofDigits_eq_spelled hdigits]
      exact .pointed hwhole hfraction (by simpa using hne) (exponent?_eq_some_iff.1 he)
  · split at h
    · cases h
    · next hne =>
      obtain ⟨e, he, rfl⟩ := Option.map_eq_some_iff.1 h
      have hdigits : IsDigits whole := ⟨by simpa using hne, hwhole⟩
      rw [ofDigits_eq_spelled hwhole]
      cases exponent?_eq_some_iff.1 he with
      | none =>
        obtain ⟨c, hc, hpoint⟩ := hsome
        rw [List.append_nil] at hc
        exact absurd hpoint (hdigits.not_isPointOrMark c hc)
      | marked hmark hsigned => exact .marked hdigits hmark hsigned

end Floating

end Decimal

namespace Term

open Decimal (Floating IsDigits IsPointOrMark Numeral Signed spelled)

/-- The text of a number, and the term it is written for: a floating point number if it has a point
or a mark, otherwise a signed word, and above the signed words the floating point number nearest to
an unsigned one. -/
inductive NumberText : List Char → Term → Prop
  | float {cs : List Char} {m : ℕ} {e : ℤ} : Floating cs m e →
    NumberText cs (.float (Decimal.Numeral.toFloat ⟨false, m, e⟩))
  | negative {cs : List Char} {m : ℕ} {e : ℤ} : Floating cs m e →
    NumberText ('-' :: cs) (.float (Decimal.Numeral.toFloat ⟨true, m, e⟩))
  | int {cs : List Char} {n : Int64} : Signed cs n.toInt → NumberText cs (.int n)
  | word {digits : List Char} : IsDigits digits → 2 ^ 63 ≤ spelled digits →
    spelled digits < 2 ^ 64 → NumberText digits (.float (Float.ofNat (spelled digits)))

/-! ## The shape of a numeral -/

/-- What stands behind the sign of a numeral: digits, points and marks of exponents, and a sign
directly behind such a mark. -/
inductive NumeralBody : (afterMark : Bool) → List Char → Prop
  | nil {afterMark : Bool} : NumeralBody afterMark []
  | digit {afterMark : Bool} {c : Char} {cs : List Char} : c.isDigit → NumeralBody false cs →
    NumeralBody afterMark (c :: cs)
  | point {afterMark : Bool} {cs : List Char} : NumeralBody false cs →
    NumeralBody afterMark ('.' :: cs)
  | mark {afterMark : Bool} {c : Char} {cs : List Char} : c = 'e' ∨ c = 'E' → NumeralBody true cs →
    NumeralBody afterMark (c :: cs)
  | sign {c : Char} {cs : List Char} : c = '+' ∨ c = '-' → NumeralBody false cs →
    NumeralBody true (c :: cs)

/-- A numeral has an optional minus sign and a body. -/
inductive NumeralShape : List Char → Prop
  | plain {cs : List Char} : NumeralBody false cs → NumeralShape cs
  | minus {cs : List Char} : NumeralBody false cs → NumeralShape ('-' :: cs)

/-- A numeral that starts with its sign or a digit. -/
structure Numeral (cs : List Char) : Prop where
  shape : NumeralShape cs
  head : ∃ c, cs.head? = some c ∧ (c = '-' ∨ c.isDigit)

/-- Characters that the reader takes for one numeral. -/
structure IsNumeral (cs : List Char) : Prop where
  head : ∃ c, cs.head? = some c ∧ (c = '-' ∨ c.isDigit)
  whole : Reader.signedNumeralLength cs = cs.length

namespace Reader

theorem isMark_eq_false_of_isDigit {c : Char} (h : c.isDigit) : isMark c = false := by
  rw [isMark, Bool.or_eq_false_iff, decide_eq_false_iff_not, decide_eq_false_iff_not]
  constructor <;>
  · rintro rfl
    exact absurd h (by decide)

end Reader

/-- The reader takes bodies as a whole, and nothing else. -/
theorem numeralBody_iff {afterMark : Bool} {cs : List Char} :
    NumeralBody afterMark cs ↔ Reader.numeralLength afterMark cs = cs.length := by
  constructor
  · intro h
    induction h with
    | nil => rfl
    | digit hc _ ih =>
      have hmark := Reader.isMark_eq_false_of_isDigit hc
      rw [Reader.numeralLength, if_pos (by simp [hc]), hmark, ih, List.length_cons]
    | point _ ih =>
      rw [Reader.numeralLength, if_pos (by simp), show Reader.isMark '.' = false by decide, ih,
        List.length_cons]
    | @mark _ c _ hc _ ih =>
      have hmark : Reader.isMark c = true := by simpa [Reader.isMark] using hc
      rw [Reader.numeralLength, if_pos (by simp [hmark]), hmark, ih, List.length_cons]
    | @sign c _ hc _ ih =>
      have hmark : Reader.isMark c = false := by rcases hc with rfl | rfl <;> decide
      rw [Reader.numeralLength, if_pos (by simp [hc]), hmark, ih, List.length_cons]
  · intro h
    induction cs generalizing afterMark with
    | nil => exact .nil
    | cons c cs ih =>
      rw [Reader.numeralLength] at h
      split at h
      · next hc =>
        have hcs := ih (Nat.succ.inj h)
        simp only [Bool.or_eq_true, Bool.and_eq_true, decide_eq_true_eq] at hc
        rcases hc with ((hdigit | rfl) | hmark) | ⟨rfl, hsign⟩
        · rw [Reader.isMark_eq_false_of_isDigit hdigit] at hcs
          exact .digit hdigit hcs
        · exact .point hcs
        · rw [hmark] at hcs
          exact .mark (by simpa [Reader.isMark] using hmark) hcs
        · rw [show Reader.isMark c = false by rcases hsign with rfl | rfl <;> decide] at hcs
          exact .sign hsign hcs
      · cases h

/-- The body of a numeral has no sign in front. -/
theorem NumeralBody.head_ne_sign {cs : List Char} (h : NumeralBody false cs) :
    ∀ c, cs.head? = some c → c ≠ '-' ∧ c ≠ '+' := by
  intro c hc
  cases h with
  | nil => cases hc
  | digit hdigit =>
    cases hc
    constructor <;>
    · rintro rfl
      exact absurd hdigit (by decide)
  | point =>
    cases hc
    decide
  | mark hmark =>
    cases hc
    rcases hmark with rfl | rfl <;> decide

namespace NumeralBody

variable {cs : List Char}

theorem weaken (h : NumeralBody false cs) (afterMark : Bool) : NumeralBody afterMark cs := by
  cases h with
  | nil => exact .nil
  | digit hc h => exact .digit hc h
  | point h => exact .point h
  | mark hc h => exact .mark hc h

theorem digits_append {digits : List Char} (hdigits : ∀ c ∈ digits, c.isDigit)
    (h : NumeralBody false cs) : NumeralBody false (digits ++ cs) := by
  induction digits with
  | nil => exact h
  | cons c digits ih =>
    obtain ⟨hc, hrest⟩ := List.forall_mem_cons.1 hdigits
    exact .digit hc (ih hrest)

theorem of_digits {digits : List Char} (hdigits : ∀ c ∈ digits, c.isDigit) :
    NumeralBody false digits := by
  have hbody := digits_append hdigits .nil
  rwa [List.append_nil] at hbody

/-- An integer may stand behind a mark. -/
theorem of_signed {z : ℤ} (h : Signed cs z) : NumeralBody true cs := by
  cases h with
  | plain hdigits => exact (of_digits hdigits.all).weaken true
  | plus hdigits => exact .sign (.inl rfl) (of_digits hdigits.all)
  | minus hdigits => exact .sign (.inr rfl) (of_digits hdigits.all)

theorem of_exponent {e : ℤ} (h : Decimal.Exponent cs e) : NumeralBody false cs := by
  cases h with
  | none => exact .nil
  | marked hmark h => exact .mark hmark (of_signed h)

theorem of_floating {m : ℕ} {e : ℤ} (h : Floating cs m e) : NumeralBody false cs := by
  cases h with
  | pointed hwhole hfraction _ htail =>
    exact digits_append hwhole (.point (digits_append hfraction (of_exponent htail)))
  | marked hwhole hmark h => exact digits_append hwhole.all (.mark hmark (of_signed h))

end NumeralBody

theorem numeral_iff {cs : List Char} : Numeral cs ↔ IsNumeral cs := by
  constructor
  · rintro ⟨hshape, c, hc, hhead⟩
    refine ⟨⟨c, hc, hhead⟩, ?_⟩
    cases hshape with
    | plain hbody =>
      have hlength := numeralBody_iff.1 hbody
      rw [Reader.signedNumeralLength.eq_2, hlength]
      rintro rest rfl
      exact (hbody.head_ne_sign '-' rfl).1 rfl
    | minus hbody =>
      rw [Reader.signedNumeralLength, numeralBody_iff.1 hbody, List.length_cons]
  · rintro ⟨⟨c, hc, hhead⟩, hwhole⟩
    refine ⟨?_, c, hc, hhead⟩
    rw [Reader.signedNumeralLength.eq_def] at hwhole
    split at hwhole
    · exact .minus (numeralBody_iff.2 (Nat.succ.inj hwhole))
    · exact .plain (numeralBody_iff.2 hwhole)

/-! ## Reading a numeral -/

/-- The names of numbers start with other letters than numerals. -/
theorem NumeralBody.named?_eq_none {cs : List Char} (h : NumeralBody false cs) :
    Decimal.named? cs = none := by
  have hname {c : Char} (hc : c.toLower ≠ 'i' ∧ c.toLower ≠ 'n') (rest : List Char) :
      Decimal.named? (c :: rest) = none := by
    simp [Decimal.named?, hc]
  cases h with
  | nil => rfl
  | digit hc =>
    obtain ⟨d, hd, rfl⟩ := Decimal.eq_digitChar_of_isDigit hc
    refine hname ?_ _
    clear hc
    revert d
    decide
  | point => exact hname (by decide) _
  | mark hc => exact hname (by rcases hc with rfl | rfl <;> decide) _

theorem any_isPointOrMark {cs : List Char} :
    (cs.any fun c => c = '.' || Reader.isMark c) = true ↔ ∃ c ∈ cs, IsPointOrMark c := by
  simp [IsPointOrMark, Reader.isMark]

namespace Reader

variable {cs : List Char}

/-- A numeral with a point or a mark is read as a floating point number. -/
theorem number?_of_some (h : ∃ c ∈ cs, IsPointOrMark c) :
    number? cs = (Decimal.float? cs).map .float :=
  if_pos (any_isPointOrMark.2 h)

/-- A numeral with neither is read as a signed word, or else as an unsigned one. -/
theorem number?_of_none (h : ∀ c ∈ cs, ¬ IsPointOrMark c) :
    number? cs = match Decimal.int64? cs with
      | some n => some (.int n)
      | none => (Decimal.uint64? cs).map Number.ofUInt64 := by
  apply if_neg
  rw [any_isPointOrMark]
  rintro ⟨c, hc, hpoint⟩
  exact h c hc hpoint

end Reader

namespace NumberText

variable {cs : List Char} {t : Term}

/-- The text of a number is read as the number. -/
theorem number?_eq (h : NumberText cs t) :
    ∃ n, Reader.number? cs = some n ∧ Reader.ofNumber n = t := by
  cases h with
  | @float cs m e h =>
    have hread : Decimal.float? cs = some (Decimal.Numeral.toFloat ⟨false, m, e⟩) := by
      rw [Decimal.float?_of_head h.head_ne_sign, Decimal.unsignedFloat?, h.unsigned?_eq]
    refine ⟨.float _, ?_, rfl⟩
    rw [Reader.number?_of_some h.exists_isPointOrMark, hread]
    rfl
  | @negative cs m e h =>
    have hread : Decimal.float? ('-' :: cs) = some (Decimal.Numeral.toFloat ⟨true, m, e⟩) := by
      rw [Decimal.float?, Decimal.unsignedFloat?, h.unsigned?_eq]
    obtain ⟨c, hc, hpoint⟩ := h.exists_isPointOrMark
    refine ⟨.float _, ?_, rfl⟩
    rw [Reader.number?_of_some ⟨c, List.mem_cons_of_mem _ hc, hpoint⟩, hread]
    rfl
  | @int cs n h =>
    refine ⟨.int n, ?_, rfl⟩
    rw [Reader.number?_of_none h.not_isPointOrMark, Decimal.int64?_eq_some_iff.2 h]
  | word h hlarge hlt =>
    have hmax : Int64.maxValue.toInt = 2 ^ 63 - 1 := rfl
    have hover : Decimal.fitInt64 (spelled cs) = none := by
      rw [Decimal.fitInt64_eq_none]
      rintro ⟨-, hle⟩
      omega
    have hint : Decimal.int64? cs = none := by
      rw [Decimal.int64?, Decimal.integer?_eq_some_iff.2 (.plain h), Option.bind_some, hover]
    obtain ⟨word, hword, hvalue⟩ := Decimal.fitUInt64_of_lt hlt
    refine ⟨.float (Float.ofNat (spelled cs)), ?_, rfl⟩
    rw [Reader.number?_of_none h.not_isPointOrMark, hint, Decimal.uint64?_digits h, hword]
    simp only [Option.map_some, Number.ofUInt64, hvalue, hover, Option.elim_none]

/-- The body of a numeral is read as a floating point number only if it is the text of one. -/
theorem floating_of_body (hcs : NumeralBody false cs) (hsome : ∃ c ∈ cs, IsPointOrMark c)
    {negative : Bool} {x : Float} (hx : Decimal.unsignedFloat? negative cs = some x) :
    ∃ m e, Floating cs m e ∧ x = Decimal.Numeral.toFloat ⟨negative, m, e⟩ := by
  unfold Decimal.unsignedFloat? at hx
  split at hx
  · next n hn =>
    cases hx
    have hnegative := Decimal.Numeral.negative_of_unsigned? hn
    subst hnegative
    exact ⟨_, _, .of_unsigned? hn hsome, rfl⟩
  · rw [hcs.named?_eq_none] at hx
    cases hx

theorem of_float? (hcs : NumeralShape cs) (hsome : ∃ c ∈ cs, IsPointOrMark c) {x : Float}
    (hx : Decimal.float? cs = some x) : NumberText cs (.float x) := by
  cases hcs with
  | plain hbody =>
    rw [Decimal.float?_of_head hbody.head_ne_sign] at hx
    obtain ⟨m, e, hfloating, rfl⟩ := floating_of_body hbody hsome hx
    exact .float hfloating
  | @minus body hbody =>
    have hbehind : ∃ c ∈ body, IsPointOrMark c := by
      obtain ⟨c, hc, hpoint⟩ := hsome
      rcases List.mem_cons.1 hc with rfl | hc
      · rcases hpoint with h | h | h <;> exact absurd h (by decide)
      · exact ⟨c, hc, hpoint⟩
    obtain ⟨m, e, hfloating, rfl⟩ := floating_of_body hbody hbehind hx
    exact .negative hfloating

/-- An unsigned word that is no signed one is above all of them. -/
theorem of_uint64? (hcs : NumeralShape cs) (hint : Decimal.int64? cs = none) {word : UInt64}
    (hword : Decimal.uint64? cs = some word) :
    NumberText cs (Reader.ofNumber (Number.ofUInt64 word)) := by
  have hplus : ∀ rest, cs = '+' :: rest → False := by
    rintro rest rfl
    cases hcs with
    | plain hbody => exact (hbody.head_ne_sign '+' rfl).2 rfl
  rw [Decimal.uint64?.eq_2 _ hplus] at hword
  obtain ⟨k, hk, hfit⟩ := Option.bind_eq_some_iff.1 hword
  obtain ⟨hdigits, rfl⟩ := Decimal.natural?_eq_some_iff.1 hk
  have hvalue := Decimal.toNat_of_fitUInt64 hfit
  rw [Decimal.int64?, Decimal.integer?_eq_some_iff.2 (.plain hdigits), Option.bind_some] at hint
  rcases Decimal.fitInt64_word word with ⟨m, hm, -⟩ | ⟨hover, hlarge⟩
  · rw [hvalue, hint] at hm
    cases hm
  · have hmax : Int64.maxValue.toInt = 2 ^ 63 - 1 := rfl
    have hlt := word.toNat_lt
    rw [Number.ofUInt64, hover, Option.elim_none, Reader.ofNumber, hvalue]
    exact .word hdigits (by omega) (by omega)

/-- What is read as a number is the text of it. -/
theorem of_number? (hcs : NumeralShape cs) {n : Number} (hn : Reader.number? cs = some n) :
    NumberText cs (Reader.ofNumber n) := by
  by_cases hsome : ∃ c ∈ cs, IsPointOrMark c
  · rw [Reader.number?_of_some hsome] at hn
    obtain ⟨x, hx, rfl⟩ := Option.map_eq_some_iff.1 hn
    exact of_float? hcs hsome hx
  · rw [Reader.number?_of_none fun c hc hpoint => hsome ⟨c, hc, hpoint⟩] at hn
    cases hint : Decimal.int64? cs with
    | some m =>
      rw [hint] at hn
      cases hn
      exact .int (Decimal.int64?_eq_some_iff.1 hint)
    | none =>
      rw [hint] at hn
      obtain ⟨word, hword, rfl⟩ := Option.map_eq_some_iff.1 hn
      exact of_uint64? hcs hint hword

end NumberText

/-- **What a numeral denotes.** A numeral is the text of a number if and only if it is read as this
number. -/
theorem numberText_iff {cs : List Char} (hcs : NumeralShape cs) {t : Term} :
    NumberText cs t ↔ ∃ n, Reader.number? cs = some n ∧ Reader.ofNumber n = t := by
  constructor
  · exact NumberText.number?_eq
  · rintro ⟨n, hn, rfl⟩
    exact .of_number? hcs hn

end Term

end MessageSelector
