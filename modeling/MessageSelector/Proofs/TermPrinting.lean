import MessageSelector.Proofs.Scaling
import MessageSelector.Proofs.Translation

/-!
# Reading a printed term

The printed form of a term is in the language of terms (`written_print`): an atom without a quote, a
number, a string whose quotes and backslashes are escaped, or a sequence of printed terms. So it is
read as the term it was printed from, if it nests no deeper than the reader goes (`read_print`).

A floating point number is printed as values are shown, but with a point before an exponent
(`Layouts`). The point moves a factor of ten from the exponent into the digits and does not change
the number that is read (`float?_program`).
-/

namespace MessageSelector

namespace Decimal

open FloatFormat (display program)

/-! ## The two layouts of a number -/

/-- What is read behind the digits of a numeral with an exponent. -/
theorem exponent?_integer (e : Int) : Numeral.exponent? ('e' :: integer e) = some e := by
  rw [Numeral.exponent?, if_pos (.inl rfl), integer?_integer]

/-- The layouts differ in front of an exponent behind a single digit. -/
inductive Layouts : List Char → List Char → Prop
  | same (text : List Char) : Layouts text text
  | exponent {d : Nat} {e : Int} : d < 10 → e < -4 ∨ 15 < e →
    Layouts (digitChar d :: '.' :: '0' :: 'e' :: integer e) (digitChar d :: 'e' :: integer e)

theorem layouts_magnitude (x : Float) : Layouts (program.magnitude x) (display.magnitude x) := by
  unfold FloatFormat.magnitude
  split
  · exact .same _
  · extract_lets d digits leading
    have hprogram : (program.positionalFrom ≤ leading ∧ leading ≤ program.positionalTo) ↔
        -4 ≤ leading ∧ leading ≤ 15 := Iff.rfl
    have hdisplay : (display.positionalFrom ≤ leading ∧ leading ≤ display.positionalTo) ↔
        -4 ≤ leading ∧ leading ≤ 15 := Iff.rfl
    simp only [hprogram, hdisplay]
    split
    · exact .same _
    · next hrange =>
      obtain ⟨c, rest, heq, hc, -⟩ := natural_eq_cons d.digits
      obtain ⟨n, hn, rfl⟩ := eq_digitChar_of_isDigit hc
      have hdigits : digits = digitChar n :: rest := heq
      rw [hdigits]
      cases rest with
      | nil => exact .exponent hn (by omega)
      | cons d rest => exact .same _

theorem Layouts.head?_eq {text text' : List Char} (h : Layouts text text') :
    text'.head? = text.head? := by
  cases h <;> rfl

/-- The numbers in both layouts are the same. -/
theorem Layouts.unsignedFloat? {text text' : List Char} (h : Layouts text text')
    (negative : Bool) : unsignedFloat? negative text = unsignedFloat? negative text' := by
  cases h with
  | same => rfl
  | @exponent d e hd he =>
    have hdigit : ∀ c ∈ [digitChar d], c.isDigit :=
      List.forall_mem_singleton.2 (isDigit_digitChar hd)
    have hzero : ∀ c ∈ ['0'], c.isDigit := List.forall_mem_singleton.2 rfl
    have hmark : ∀ c, ('e' :: integer e).head? = some c → c.isDigit = false ∧ c ≠ '.' := by
      rintro _ ⟨⟩
      decide
    have hone : ofDigits [digitChar d] = d := (Nat.zero_add _).trans (digitValue_digitChar hd)
    have hten : ofDigits [digitChar d, '0'] = 10 * d := by
      rw [← List.singleton_append, ofDigits_append, hone]
      rfl
    have hpointed : Numeral.unsigned? negative (digitChar d :: '.' :: '0' :: 'e' :: integer e) =
        some ⟨negative, ofDigits [digitChar d, '0'], e - 1⟩ :=
      Numeral.unsigned?_pointed hdigit hzero (by simp) (fun c hc => (hmark c hc).1)
        (exponent?_integer e) negative
    have hwhole : Numeral.unsigned? negative (digitChar d :: 'e' :: integer e) =
        some ⟨negative, ofDigits [digitChar d], e⟩ :=
      Numeral.unsigned?_whole hdigit (by simp) hmark (exponent?_integer e) negative
    rw [hten] at hpointed
    rw [hone] at hwhole
    have hnumber := Numeral.magnitude_ten hd he
    rw [Decimal.unsignedFloat?, Decimal.unsignedFloat?, hpointed, hwhole]
    simp only [Numeral.toFloat, hnumber]

/-- A number is read from its numeral as from the text in which it is shown. -/
theorem float?_program (x : Float) :
    float? (program.write x).toList = float? (showFloat x).toList := by
  have hlayouts := layouts_magnitude x
  obtain ⟨m, e, hfloating⟩ := (Term.Reader.isPointed_magnitude x).floating
  unfold showFloat FloatFormat.write
  split
  · rfl
  · simp only [String.toList_ofList]
    by_cases hinf : x.isInf
    · simp only [hinf, ↓reduceIte]
    · simp only [hinf, Bool.false_eq_true, ↓reduceIte]
      split
      · exact hlayouts.unsignedFloat? true
      · have hhead' : ∀ c, (display.magnitude x).head? = some c → c ≠ '-' ∧ c ≠ '+' := by
          rw [hlayouts.head?_eq]
          exact hfloating.head_ne_sign
        rw [float?_of_head hfloating.head_ne_sign, float?_of_head hhead']
        exact hlayouts.unsignedFloat? false

end Decimal

namespace Term

/-! ## The parts of a term -/

mutual

/-- A term and all terms in it. -/
def parts : Term → List Term
  | tuple items => tuple items :: partsAll items
  | list items => list items :: partsAll items
  | t => [t]

/-- The terms and all terms in them. -/
def partsAll : List Term → List Term
  | [] => []
  | t :: rest => parts t ++ partsAll rest

end

/-- A term that is a sequence, or whose text is read as the term. -/
def Legible : Term → Prop
  | atom name => '\'' ∉ name.toList
  | float x => x.isFinite ∧ Decimal.float? (Decimal.showFloat x).toList = some x
  | _ => True

mutual

/-- A term with legible parts is written for itself, where it nests no deeper than there is room. -/
theorem written_print {room : Nat} {t : Term} (h : ∀ s ∈ t.parts, s.Legible)
    (hdepth : t.depth ≤ room) : Written IsNumeral room t.print.toList (.term t) := by
  cases t with
  | atom name => exact written_atomText (h (.atom name) (by simp [parts]))
  | int n => exact written_integerText n
  | float x =>
    obtain ⟨hfinite, hshown⟩ := h (.float x) (by simp [parts])
    rw [← Decimal.float?_program] at hshown
    exact written_float hfinite hshown
  | binary s => exact written_binaryText s
  | tuple items =>
    rw [depth] at hdepth
    obtain ⟨room, rfl⟩ := Nat.exists_eq_add_of_lt hdepth
    rw [parts, List.forall_mem_cons] at h
    exact written_tupleText (allWritten_printAll h.2 (by omega))
  | list items =>
    rw [depth] at hdepth
    obtain ⟨room, rfl⟩ := Nat.exists_eq_add_of_lt hdepth
    rw [parts, List.forall_mem_cons] at h
    exact written_listText (allWritten_printAll h.2 (by omega))

theorem allWritten_printAll {room : Nat} {ts : List Term} (h : ∀ s ∈ partsAll ts, s.Legible)
    (hdepth : depthAll ts ≤ room) : AllWritten room (printAll ts) ts := by
  cases ts with
  | nil => exact .nil
  | cons t ts =>
    rw [depthAll] at hdepth
    rw [partsAll, List.forall_mem_append] at h
    exact .cons (written_print h.1 (by omega)) (allWritten_printAll h.2 (by omega))

end

/-- **A printed term is read again.** A term whose floats are finite and whose atoms have no quote,
and that nests no deeper than the reader goes, is read from its text, if its floats are read from
the texts in which they are shown. -/
theorem read_print {t : Term} (hfinite : ∀ x, float x ∈ t.parts → x.isFinite)
    (hatoms : ∀ name, atom name ∈ t.parts → '\'' ∉ name.toList)
    (hdepth : t.depth ≤ maxTermDepth)
    (hshown : ∀ x, float x ∈ t.parts → Decimal.float? (Decimal.showFloat x).toList = some x) :
    read t.print = .ok t := by
  have hlegible : ∀ s ∈ t.parts, s.Legible := by
    intro s hs
    cases s with
    | atom name => exact hatoms name hs
    | float x => exact ⟨hfinite x hs, hshown x hs⟩
    | _ => trivial
  have hnone : ∀ c ∈ ([] : List Char), Text.isBlank c := List.forall_mem_nil _
  exact (written_print hlegible hdepth).read hnone hnone (List.append_nil _).symm

/-- Quotes and backslashes, a negative zero, a number with an exponent behind a single digit and
empty sequences are read again. -/
theorem read_print_nested :
    let t : Term := .tuple [.atom "a b", .binary "\"\\", .list [.float (-0.0), .float 1e20],
      .tuple [], .list [.int (-7)]]
    (∀ x, float x ∈ t.parts → x.isFinite) ∧
      (∀ name, atom name ∈ t.parts → '\'' ∉ name.toList) ∧ t.depth ≤ maxTermDepth ∧
      (∀ x, float x ∈ t.parts → Decimal.float? (Decimal.showFloat x).toList = some x) ∧
      read t.print = .ok t := by
  intro t
  have hfloats : ∀ x, float x ∈ t.parts → x = -0.0 ∨ x = 1e20 := by
    intro x hx
    simpa [t, parts, partsAll] using hx
  have hfinite : ∀ x, float x ∈ t.parts → x.isFinite := by
    intro x hx
    rcases hfloats x hx with rfl | rfl <;> decide +kernel
  have hatoms : ∀ name, atom name ∈ t.parts → '\'' ∉ name.toList := by
    intro name hname
    have heq : name = "a b" := by simpa [t, parts, partsAll] using hname
    subst heq
    decide
  have hdepth : t.depth ≤ maxTermDepth := by
    simp [t, depth, depthAll, maxTermDepth]
  have hshown : ∀ x, float x ∈ t.parts →
      Decimal.float? (Decimal.showFloat x).toList = some x := by
    intro x hx
    rcases hfloats x hx with rfl | rfl <;> decide +kernel
  exact ⟨hfinite, hatoms, hdepth, hshown, read_print hfinite hatoms hdepth hshown⟩

end Term

end MessageSelector
