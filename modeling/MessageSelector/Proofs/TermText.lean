import Mathlib.Data.List.Forall2
import MessageSelector.Proofs.TermLanguage

/-!
# The pieces of printed terms

What the compiler writes for atoms, strings, numbers and sequences is in the language of terms
(`written_atomText`, `written_binaryText`, `written_float`, `written_tupleText`,
`written_listText`). An unsigned word above the signed range is written with its own digits, and so
stands for the floating point number it is read as (`written_word`).
-/

namespace MessageSelector

open Decimal (natural integer Floating FloatFormat IsDigits IsPointOrMark Signed spelled)

namespace Term

variable {room : Nat}

/-! ## Atoms, strings and sequences -/

theorem written_atomText {name : String} (h : '\'' ∉ name.toList) :
    Written IsNumeral room (atomText name).toList (.term (.atom name)) := by
  have hwritten := @Written.atom IsNumeral room name.toList h
  rw [String.ofList_toList] at hwritten
  simpa [atomText] using hwritten

theorem binaryBody_escapeBinary (s : List Char) : BinaryBody (escapeBinary s) s := by
  induction s with
  | nil => exact .nil
  | cons c s ih =>
    rw [escapeBinary]
    split
    · exact .escaped ih
    · next h =>
      rw [not_or] at h
      exact .plain h.1 h.2 ih

theorem written_binaryText (s : String) :
    Written IsNumeral room (binaryText s).toList (.term (.binary s)) := by
  have hwritten := @Written.binary IsNumeral room _ _ (binaryBody_escapeBinary s.toList)
  rw [String.ofList_toList] at hwritten
  simpa [binaryText] using hwritten

/-- Texts are written for terms, one for one. -/
def AllWritten (room : Nat) : List String → List Term → Prop :=
  List.Forall₂ fun text t => Written IsNumeral room text.toList (.term t)

theorem written_intercalate {texts : List String} {ts : List Term} (h : AllWritten room texts ts) :
    Written IsNumeral room (String.intercalate ", " texts).toList (.items ts) := by
  have hnone : ∀ c ∈ ([] : List Char), Text.isBlank c := List.forall_mem_nil _
  have hblank : ∀ c ∈ [' '], Text.isBlank c := List.forall_mem_singleton.2 rfl
  induction h with
  | nil => exact .empty hnone
  | @cons text t texts ts ht hrest ih =>
    cases hrest with
    | nil =>
      rw [String.intercalate_singleton]
      simpa using Written.last hnone ht hnone
    | @cons text' t' texts ts ht' hrest =>
      rw [String.intercalate_cons_cons]
      simpa using Written.more hnone ht hnone (ih.blanks_items hblank) (List.cons_ne_nil t' ts)

theorem written_tupleText {texts : List String} {ts : List Term} (h : AllWritten room texts ts) :
    Written IsNumeral (room + 1) (tupleText texts).toList (.term (.tuple ts)) := by
  simpa [tupleText] using Written.tuple (written_intercalate h)

theorem written_listText {texts : List String} {ts : List Term} (h : AllWritten room texts ts) :
    Written IsNumeral (room + 1) (listText texts).toList (.term (.list ts)) := by
  simpa [listText] using Written.list (written_intercalate h)

/-! ## Integers -/

namespace Reader

/-- What starts with a digit and goes on with a numeral is one, behind a sign too. -/
theorem isNumeral_of_body {cs : List Char} {c : Char} (hc : cs.head? = some c) (hdigit : c.isDigit)
    (h : NumeralBody false cs) (negative : Bool) :
    IsNumeral (if negative then '-' :: cs else cs) := by
  rw [← numeral_iff]
  cases negative with
  | true => exact ⟨.minus h, '-', rfl, .inl rfl⟩
  | false => exact ⟨.plain h, c, hc, .inr hdigit⟩

theorem isNumeral_integer (n : Int) : IsNumeral (integer n) := by
  obtain ⟨c, rest, heq, hc, -⟩ := Decimal.natural_eq_cons n.natAbs
  have hbody : NumeralBody false (natural n.natAbs) :=
    .of_digits fun _ => Decimal.isDigit_natural
  have h := isNumeral_of_body (by rw [heq]; rfl) hc hbody (decide (n < 0))
  simpa [integer] using h

end Reader

theorem signed_integer (n : Int) : Signed (integer n) n :=
  Decimal.integer?_eq_some_iff.1 (Decimal.integer?_integer n)

theorem written_integerText (n : Int64) :
    Written IsNumeral room (integerText n.toInt).toList (.term (.int n)) := by
  rw [integerText, String.toList_ofList]
  exact .number (Reader.isNumeral_integer _) (.int (signed_integer n.toInt))

theorem written_word (n : UInt64) :
    Written IsNumeral room (integerText n.toNat).toList
      (.term (Reader.ofNumber (Number.ofUInt64 n))) := by
  rw [integerText, String.toList_ofList]
  refine .number (Reader.isNumeral_integer _) ?_
  have hsigned := signed_integer n.toNat
  rw [Number.ofUInt64]
  rcases Decimal.fitInt64_word n with ⟨k, hfit, hvalue, -⟩ | ⟨hnone, hlarge⟩
  · rw [hfit]
    exact .int (by rwa [hvalue])
  · have hdigits : IsDigits (natural n.toNat) :=
      ⟨Decimal.natural_ne_nil _, fun _ => Decimal.isDigit_natural⟩
    have hspelled : spelled (natural n.toNat) = n.toNat := by
      rw [← Decimal.ofDigits_eq_spelled hdigits.all, Decimal.ofDigits_natural]
    have htext : integer n.toNat = natural n.toNat := by
      rw [integer, if_neg (by omega), Int.natAbs_natCast]
    have hmax : Int64.maxValue.toInt = 2 ^ 63 - 1 := rfl
    have hlt := n.toNat_lt
    have hword := NumberText.word hdigits (by omega) (by omega)
    rw [hnone, Option.elim_none, htext]
    rwa [hspelled] at hword

/-! ## Floating point numbers -/

namespace Reader

/-- Digits on both sides of a point, and maybe an exponent. -/
inductive IsPointed : List Char → Prop
  | plain {whole fraction : List Char} : whole ≠ [] → (∀ c ∈ whole, c.isDigit) →
    (∀ c ∈ fraction, c.isDigit) → IsPointed (whole ++ '.' :: fraction)
  | exponent {whole fraction : List Char} (n : Int) : whole ≠ [] → (∀ c ∈ whole, c.isDigit) →
    (∀ c ∈ fraction, c.isDigit) → IsPointed (whole ++ '.' :: fraction ++ 'e' :: integer n)

theorem IsPointed.head {cs : List Char} (h : IsPointed cs) :
    ∃ c, cs.head? = some c ∧ c.isDigit := by
  have hhead {whole : List Char} (hne : whole ≠ []) (hwhole : ∀ c ∈ whole, c.isDigit)
      (rest : List Char) : ∃ c, (whole ++ rest).head? = some c ∧ c.isDigit := by
    obtain ⟨c, whole, rfl⟩ := List.exists_cons_of_ne_nil hne
    exact ⟨c, rfl, hwhole c List.mem_cons_self⟩
  cases h with
  | plain hne hwhole => exact hhead hne hwhole _
  | exponent n hne hwhole =>
    rw [List.append_assoc]
    exact hhead hne hwhole _

/-- Such a text is the text of a floating point number. -/
theorem IsPointed.floating {cs : List Char} (h : IsPointed cs) : ∃ m e, Floating cs m e := by
  cases h with
  | @plain whole fraction hne hwhole hfraction =>
    have h := Floating.pointed hwhole hfraction (List.append_ne_nil_of_left_ne_nil hne _) .none
    rw [List.append_nil] at h
    exact ⟨_, _, h⟩
  | @exponent whole fraction n hne hwhole hfraction =>
    rw [List.append_assoc, List.cons_append]
    exact ⟨_, _, .pointed hwhole hfraction (List.append_ne_nil_of_left_ne_nil hne _)
      (.marked (.inl rfl) (signed_integer n))⟩

/-- With more digits than places, a digit stands before the point. -/
theorem isPointed_pointed {digits : List Char} (h : ∀ d ∈ digits, d.isDigit) {places : Nat}
    (hplaces : places < digits.length) : IsPointed (FloatFormat.pointed digits places) := by
  refine .plain ?_ (fun c hc => h c (List.mem_of_mem_take hc))
    fun c hc => h c (List.mem_of_mem_drop hc)
  rw [← List.length_pos_iff, List.length_take]
  omega

theorem isPointed_positional (m : Nat) (exponent : Int) :
    IsPointed (FloatFormat.positional (natural m) exponent) := by
  have hzeros {k : Nat} : ∀ c ∈ List.replicate k '0', c.isDigit := by
    rintro c hc
    rw [(List.mem_replicate.1 hc).2]
    decide
  have hdigits : ∀ c ∈ natural m, c.isDigit := fun _ => Decimal.isDigit_natural
  rw [FloatFormat.positional]
  split
  · refine .plain (by simp [Decimal.natural_ne_nil]) (fun c hc => ?_)
      (List.forall_mem_singleton.2 rfl)
    exact (List.mem_append.1 hc).elim (hdigits c) (hzeros c)
  · have hpos := List.length_pos_iff.2 (Decimal.natural_ne_nil m)
    refine isPointed_pointed (fun c hc => ?_) ?_
    · exact (List.mem_append.1 hc).elim (hzeros c) (hdigits c)
    · rw [List.length_append, List.length_replicate]
      omega

theorem isPointed_scientific (m : Nat) (leading : Int) :
    IsPointed (FloatFormat.program.scientific (natural m) leading) := by
  obtain ⟨c, rest, heq, hc, hrest⟩ := Decimal.natural_eq_cons m
  have hfirst : ∀ d ∈ [c], d.isDigit := List.forall_mem_singleton.2 hc
  rw [heq]
  cases rest with
  | nil =>
    have hzero : ∀ d ∈ ['0'], d.isDigit := List.forall_mem_singleton.2 rfl
    exact .exponent leading (List.cons_ne_nil c []) hfirst hzero
  | cons d rest => exact .exponent leading (List.cons_ne_nil c []) hfirst hrest

theorem isPointed_magnitude (x : Float) : IsPointed (FloatFormat.program.magnitude x) := by
  rw [FloatFormat.magnitude]
  split
  · have hzero : ∀ d ∈ ['0'], d.isDigit := List.forall_mem_singleton.2 rfl
    exact .plain (List.cons_ne_nil '0' []) hzero hzero
  · extract_lets d digits leading
    split
    · exact isPointed_positional _ _
    · exact isPointed_scientific _ _

theorem isFinite_iff {x : Float} : x.isFinite ↔ x.isNaN = false ∧ x.isInf = false := by
  have hfinite : x.isFinite = x.toModel.unpack.isFinite := rfl
  have hnan : x.isNaN = x.toModel.unpack.isNaN := rfl
  have hinf : x.isInf = x.toModel.unpack.isInf := rfl
  rw [hfinite, hnan, hinf]
  cases x.toModel.unpack with
  | notANumber => exact ⟨nofun, fun h => nomatch h.1⟩
  | infinity => exact ⟨nofun, fun h => nomatch h.2⟩
  | zero | finite => exact ⟨fun _ => ⟨rfl, rfl⟩, fun _ => rfl⟩

end Reader

/-- The text of a finite number is its sign, if it is negative, and its magnitude. -/
theorem toList_write {f : FloatFormat} {x : Float} (hx : x.isFinite) : (f.write x).toList =
    if FloatFormat.isNegative x then '-' :: f.magnitude x else f.magnitude x := by
  obtain ⟨hnan, hinf⟩ := Reader.isFinite_iff.1 hx
  simp only [FloatFormat.write, hnan, hinf, Bool.false_eq_true, ↓reduceIte, String.toList_ofList]

/-- The numeral of a finite number is read as some number. -/
theorem float?_write {x : Float} (hx : x.isFinite) :
    ∃ y, Decimal.float? (FloatFormat.program.write x).toList = some y := by
  obtain ⟨m, e, hfloating⟩ := (Reader.isPointed_magnitude x).floating
  have hread (negative : Bool) :
      ∃ y, Decimal.unsignedFloat? negative (FloatFormat.program.magnitude x) = some y :=
    ⟨_, by rw [Decimal.unsignedFloat?, hfloating.unsigned?_eq]⟩
  rw [toList_write hx]
  split
  · exact hread true
  · rw [Decimal.float?_of_head hfloating.head_ne_sign]
    exact hread false

/-- The numeral of a finite number is written for the number that its digits are read as. -/
theorem written_float {x y : Float} (hx : x.isFinite)
    (hread : Decimal.float? (FloatFormat.program.write x).toList = some y) :
    Written IsNumeral room (FloatFormat.program.write x).toList (.term (.float y)) := by
  obtain ⟨m, e, hfloating⟩ := (Reader.isPointed_magnitude x).floating
  obtain ⟨c, hc, hdigit⟩ := (Reader.isPointed_magnitude x).head
  have hnumeral : IsNumeral (FloatFormat.program.write x).toList := by
    rw [toList_write hx]
    exact Reader.isNumeral_of_body hc hdigit (.of_floating hfloating) _
  have hsome : ∃ c ∈ (FloatFormat.program.write x).toList, IsPointOrMark c := by
    obtain ⟨c, hc, hpoint⟩ := hfloating.exists_isPointOrMark
    rw [toList_write hx]
    split
    · exact ⟨c, List.mem_cons_of_mem _ hc, hpoint⟩
    · exact ⟨c, hc, hpoint⟩
  exact .number hnumeral (.of_float? (numeral_iff.2 hnumeral).shape hsome hread)

end Term

end MessageSelector
