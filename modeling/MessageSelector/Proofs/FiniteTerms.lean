import MessageSelector.Proofs.NumeralRange
import MessageSelector.Proofs.TermPrinting

/-!
# Programs with finite numbers

A number that is not finite has no numeral. It is printed by its name, and no term starts like one
(`print_refused`). So a program that was read is read again from its print if and only if its
numbers are finite (`reread_print`), which they are if and only if its numerals are in range
(`isFinite_iff_isProgram`).
-/

namespace MessageSelector.Term

open Decimal (FloatFormat)

/-! ## What is written for a term -/

/-- All terms in a phrase. -/
def Phrase.parts : Phrase → List Term
  | term t => t.parts
  | items ts => partsAll ts

/-- The greatest number of tuples and lists that nest in a phrase. -/
def Phrase.depth : Phrase → Nat
  | term t => t.depth
  | items ts => depthAll ts

variable {numeral : List Char → Prop} {room : Nat} {cs : List Char} {phrase : Phrase}

theorem NumberText.parts_eq {t : Term} (h : NumberText cs t) : t.parts = [t] := by
  cases h <;> rfl

/-- What holds of sequences, and of all atoms, strings and numbers that can be written, holds of all
parts of what is written. -/
theorem Written.forall_parts {p : Term → Prop}
    (hatom : ∀ name : List Char, '\'' ∉ name → p (.atom (String.ofList name)))
    (hbinary : ∀ s, p (.binary s))
    (hnumber : ∀ cs t, numeral cs → NumberText cs t → p t)
    (htuple : ∀ ts, p (.tuple ts)) (hlist : ∀ ts, p (.list ts))
    (h : Written numeral room cs phrase) : ∀ s ∈ phrase.parts, p s := by
  induction h with
  | atom hname => exact List.forall_mem_singleton.2 (hatom _ hname)
  | binary => exact List.forall_mem_singleton.2 (hbinary _)
  | number hcs ht =>
    rw [Phrase.parts, ht.parts_eq]
    exact List.forall_mem_singleton.2 (hnumber _ _ hcs ht)
  | tuple _ ih => exact List.forall_mem_cons.2 ⟨htuple _, ih⟩
  | list _ ih => exact List.forall_mem_cons.2 ⟨hlist _, ih⟩
  | empty => exact List.forall_mem_nil _
  | last _ _ _ ih => exact List.forall_mem_append.2 ⟨ih, List.forall_mem_nil _⟩
  | more _ _ _ _ _ ih ihmore => exact List.forall_mem_append.2 ⟨ih, ihmore⟩

theorem Written.depth_le (h : Written numeral room cs phrase) : phrase.depth ≤ room := by
  induction h with
  | atom | binary | empty => exact Nat.zero_le _
  | number _ ht =>
    cases ht <;> exact Nat.zero_le _
  | tuple _ ih | list _ ih => exact Nat.succ_le_succ ih
  | last _ _ _ ih => exact max_le ih (Nat.zero_le _)
  | more _ _ _ _ _ ih ihmore => exact max_le ih ihmore

/-- Where all numbers are finite, all numerals are in range. -/
theorem Written.inRange (h : Written Numeral room cs phrase)
    (hfinite : ∀ x, float x ∈ phrase.parts → x.isFinite) :
    Written (fun cs => Numeral cs ∧ InRange cs) room cs phrase := by
  induction h with
  | atom hname => exact .atom hname
  | binary hbody => exact .binary hbody
  | number hcs ht =>
    refine .number ⟨hcs, (isFinite_iff_inRange hcs.shape ht).1 fun x hx => ?_⟩ ht
    exact hfinite x (by rw [hx]; exact List.mem_singleton_self _)
  | tuple _ ih => exact .tuple (ih fun x hx => hfinite x (List.mem_cons_of_mem _ hx))
  | list _ ih => exact .list (ih fun x hx => hfinite x (List.mem_cons_of_mem _ hx))
  | empty hblanks => exact .empty hblanks
  | last hbefore _ hafter ih =>
    exact .last hbefore (ih fun x hx => hfinite x (List.mem_append_left _ hx)) hafter
  | more hbefore _ hafter _ hne ih ihmore =>
    exact .more hbefore (ih fun x hx => hfinite x (List.mem_append_left _ hx)) hafter
      (ihmore fun x hx => hfinite x (List.mem_append_right _ hx)) hne

/-- **The numbers of a program are finite if and only if its numerals are in range.** -/
theorem isFinite_iff_isProgram {text : String} {t : Term} (h : IsProgram Numeral text t) :
    (∀ x, float x ∈ t.parts → x.isFinite) ↔
      IsProgram (fun cs => Numeral cs ∧ InRange cs) text t := by
  obtain ⟨before, cs, after, htext, hbefore, hafter, hcs⟩ := h
  constructor
  · exact fun hfinite => ⟨before, cs, after, htext, hbefore, hafter, hcs.inRange hfinite⟩
  · rintro ⟨_, _, _, -, -, -, hranged⟩
    have hparts : ∀ s ∈ t.parts, ∀ x, s = .float x → x.isFinite := by
      refine hranged.forall_parts (fun _ _ _ hx => nomatch hx) (fun _ _ hx => nomatch hx) ?_
        (fun _ _ hx => nomatch hx) fun _ _ hx => nomatch hx
      intro cs t hcs ht
      exact (isFinite_iff_inRange hcs.1.shape ht).2 hcs.2
    exact fun x hx => hparts _ hx x rfl

/-! ## Names of numbers -/

section Refused

variable {total : Nat}

theorem write_of_not_isFinite {f : FloatFormat} {x : Float} (hx : ¬ x.isFinite) :
    f.write x = "NaN" ∨ f.write x = "inf" ∨ f.write x = "-inf" := by
  rw [Reader.isFinite_iff, not_and] at hx
  unfold FloatFormat.write
  split
  · exact .inl rfl
  · next hnan =>
    have hinf : x.isInf = true := by simpa using hx (by simpa using hnan)
    simp only [hinf, ↓reduceIte]
    split
    · exact .inr (.inr rfl)
    · exact .inr (.inl rfl)

/-- No term starts with the name of a number. -/
theorem name_refused {x : Float} (hx : ¬ x.isFinite) (rest : List Char) :
    (Reader.term total room ((FloatFormat.program.write x).toList ++ rest)).isOk = false := by
  have hsign : Reader.number? ['-'] = none := by decide +kernel
  rcases write_of_not_isFinite hx with hname | hname | hname <;> rw [hname]
  · show (Reader.term total room ('N' :: 'a' :: 'N' :: rest)).isOk = false
    rw [Reader.term, skipBlanks_cons (by decide)]
    rfl
  · show (Reader.term total room ('i' :: 'n' :: 'f' :: rest)).isOk = false
    rw [Reader.term, skipBlanks_cons (by decide)]
    rfl
  · show (Reader.term total room ('-' :: 'i' :: 'n' :: 'f' :: rest)).isOk = false
    rw [Reader.term, skipBlanks_cons (by decide)]
    show (Reader.number total ('-' :: 'i' :: 'n' :: 'f' :: rest)).isOk = false
    have hlength : Reader.signedNumeralLength ('-' :: 'i' :: 'n' :: 'f' :: rest) = 1 := rfl
    rw [Reader.number, hlength, List.take_succ_cons, List.take_zero, hsign]
    rfl

/-- A printed term starts with a character that is neither a blank nor a closing bracket. -/
theorem print_head (t : Term) : ∃ c rest, t.print.toList = c :: rest ∧
    Text.isBlank c = false ∧ c ≠ '\x7d' ∧ c ≠ ']' := by
  have hwritten {cs : List Char} {u : Term} (h : Written IsNumeral 0 cs (.term u)) :
      ∃ c rest, cs = c :: rest ∧ Text.isBlank c = false ∧ c ≠ '\x7d' ∧ c ≠ ']' := by
    obtain ⟨c, rest, hcs, hc⟩ := h.head
    refine ⟨c, rest, hcs, Reader.isBlank_eq_false_of_isTermHead hc, ?_, ?_⟩ <;>
    · rintro rfl
      exact absurd hc (by decide)
  cases t with
  | atom name => exact ⟨'\'', name.toList ++ ['\''], by simp [print, atomText], by decide⟩
  | int n => exact hwritten (written_integerText n)
  | float x =>
    by_cases hx : x.isFinite
    · obtain ⟨y, hy⟩ := float?_write hx
      exact hwritten (written_float hx hy)
    · rw [print]
      rcases write_of_not_isFinite (f := .program) hx with hname | hname | hname <;>
      · rw [hname]
        exact ⟨_, _, rfl, by decide⟩
  | binary s => exact hwritten (written_binaryText s)
  | tuple items =>
    exact ⟨'\x7b', (String.intercalate ", " (printAll items)).toList ++ ['\x7d'],
      by simp [print, tupleText], by decide⟩
  | list items =>
    exact ⟨'[', (String.intercalate ", " (printAll items)).toList ++ [']'],
      by simp [print, listText], by decide⟩

/-! ## Refused sequences -/

theorem isOk_bind {ε α β : Type} {x : Except ε α} {f : α → Except ε β} (h : x.isOk = false) :
    (x >>= f).isOk = false := by
  cases x with
  | ok => cases h
  | error => rfl

theorem isOk_map {ε α β : Type} {x : Except ε α} {f : α → β} (h : x.isOk = false) :
    (x.map f).isOk = false := by
  cases x with
  | ok => cases h
  | error => rfl

variable {read : List Char → Except ProgramError (Term × List Char)} {close : Char}

/-- Items are refused if the first one is. -/
theorem items_refused_first {left : List Char} (h : (read left).isOk = false) (bound : Nat) :
    (Reader.items total read close bound left).isOk = false := by
  cases bound with
  | zero => rfl
  | succ bound => exact isOk_bind h

/-- Items are refused if those behind the first comma are. -/
theorem items_refused_more {left next : List Char} {t : Term}
    (hfirst : read left = .ok (t, ',' :: next))
    (h : ∀ bound, (Reader.items total read close bound next).isOk = false) (bound : Nat) :
    (Reader.items total read close bound left).isOk = false := by
  cases bound with
  | zero => rfl
  | succ bound =>
    have hcomma : Text.skipBlanks (',' :: next) = ',' :: next := skipBlanks_cons (by decide) next
    simp only [Reader.items, hfirst, bind, Except.bind, hcomma]
    exact isOk_bind (h bound)

theorem items_refused_blank {left : List Char} {bound : Nat}
    (h : (Reader.items total (Reader.term total room) close bound left).isOk = false) :
    (Reader.items total (Reader.term total room) close bound (' ' :: left)).isOk = false := by
  cases bound with
  | zero => rfl
  | succ bound =>
    have hskip : Text.skipBlanks (' ' :: left) = Text.skipBlanks left := rfl
    rw [← Reader.items_skipBlanks, hskip, Reader.items_skipBlanks]
    exact h

/-- Printed items start with a character that is neither a blank nor a closing bracket. -/
theorem printAll_head {ts : List Term} (hne : ts ≠ []) (rest : List Char) : ∃ c more,
    (String.intercalate ", " (printAll ts)).toList ++ rest = c :: more ∧
      Text.isBlank c = false ∧ c ≠ '\x7d' ∧ c ≠ ']' := by
  obtain ⟨t, ts, rfl⟩ := List.exists_cons_of_ne_nil hne
  obtain ⟨c, more, hprint, hc⟩ := t.print_head
  cases ts with
  | nil =>
    rw [printAll, printAll, String.intercalate_singleton, hprint]
    exact ⟨c, _, rfl, hc⟩
  | cons u us =>
    rw [printAll, printAll, String.intercalate_cons_cons]
    simp only [String.toList_append, hprint, List.cons_append]
    exact ⟨c, _, rfl, hc⟩

/-- A sequence is refused if its printed items are, of which there is one at least. -/
theorem sequence_refused {ts : List Term} (hne : ts ≠ []) {rest : List Char}
    (hclose : close = '\x7d' ∨ close = ']')
    (h : ∀ bound, (Reader.items total read close bound
      ((String.intercalate ", " (printAll ts)).toList ++ rest)).isOk = false) :
    (Reader.sequence total read close
      ((String.intercalate ", " (printAll ts)).toList ++ rest)).isOk = false := by
  obtain ⟨c, more, hhead, hblank, hc, hc'⟩ := printAll_head hne rest
  have hother : c ≠ close := by rcases hclose with rfl | rfl <;> assumption
  rw [hhead] at h ⊢
  rw [Reader.sequence, skipBlanks_cons hblank]
  simp only [hother, ↓reduceIte]
  exact h _

/-- A printed tuple is refused if its items are. -/
theorem tuple_refused {ts : List Term} (hne : ts ≠ [])
    (h : ∀ rest bound, (Reader.items total (Reader.term total room) '\x7d' bound
      ((String.intercalate ", " (printAll ts)).toList ++ rest)).isOk = false) (rest : List Char) :
    (Reader.term total (room + 1) ((print (.tuple ts)).toList ++ rest)).isOk = false := by
  have hprint : (print (.tuple ts)).toList ++ rest =
      '\x7b' :: ((String.intercalate ", " (printAll ts)).toList ++ '\x7d' :: rest) := by
    simp [print, tupleText]
  rw [hprint, Reader.term, skipBlanks_cons (by decide)]
  exact isOk_map (sequence_refused hne (.inl rfl) (h _))

/-- A printed list is refused if its items are. -/
theorem list_refused {ts : List Term} (hne : ts ≠ [])
    (h : ∀ rest bound, (Reader.items total (Reader.term total room) ']' bound
      ((String.intercalate ", " (printAll ts)).toList ++ rest)).isOk = false) (rest : List Char) :
    (Reader.term total (room + 1) ((print (.list ts)).toList ++ rest)).isOk = false := by
  have hprint : (print (.list ts)).toList ++ rest =
      '[' :: ((String.intercalate ", " (printAll ts)).toList ++ ']' :: rest) := by
    simp [print, listText]
  rw [hprint, Reader.term, skipBlanks_cons (by decide)]
  exact isOk_map (sequence_refused hne (.inr rfl) (h _))

/-! ## Refused terms -/

/-- A term that is legible, or a number that is not finite. -/
def LegibleOrName (t : Term) : Prop :=
  t.Legible ∨ ∃ x, t = .float x ∧ ¬ x.isFinite

theorem ne_nil_of_not_legible {ts : List Term} (h : ¬ ∀ s ∈ partsAll ts, s.Legible) : ts ≠ [] := by
  rintro rfl
  exact h (List.forall_mem_nil _)

mutual

/-- **A printed term with a number that is not finite is refused**, whatever follows it. -/
theorem print_refused {room : Nat} {t : Term} (h : ∀ s ∈ t.parts, s.LegibleOrName)
    (hdepth : t.depth ≤ room) (hsome : ¬ ∀ s ∈ t.parts, s.Legible) (rest : List Char) :
    (Reader.term total room (t.print.toList ++ rest)).isOk = false := by
  cases t with
  | tuple items =>
    rw [depth] at hdepth
    obtain ⟨room, rfl⟩ := Nat.exists_eq_add_of_lt hdepth
    rw [parts, List.forall_mem_cons] at h hsome
    have hitems : ¬ ∀ s ∈ partsAll items, s.Legible := fun hall => hsome ⟨trivial, hall⟩
    exact tuple_refused (ne_nil_of_not_legible hitems)
      (fun rest bound => printAll_refused h.2 (by omega) hitems rest bound) rest
  | list items =>
    rw [depth] at hdepth
    obtain ⟨room, rfl⟩ := Nat.exists_eq_add_of_lt hdepth
    rw [parts, List.forall_mem_cons] at h hsome
    have hitems : ¬ ∀ s ∈ partsAll items, s.Legible := fun hall => hsome ⟨trivial, hall⟩
    exact list_refused (ne_nil_of_not_legible hitems)
      (fun rest bound => printAll_refused h.2 (by omega) hitems rest bound) rest
  | float | atom | int | binary =>
    simp only [parts, List.forall_mem_singleton] at h hsome
    obtain ⟨x, heq, hx⟩ := h.resolve_left hsome
    rw [heq]
    exact name_refused hx rest

theorem printAll_refused {room : Nat} {close : Char} {ts : List Term}
    (h : ∀ s ∈ partsAll ts, s.LegibleOrName) (hdepth : depthAll ts ≤ room)
    (hsome : ¬ ∀ s ∈ partsAll ts, s.Legible) (rest : List Char) (bound : Nat) :
    (Reader.items total (Reader.term total room) close bound
      ((String.intercalate ", " (printAll ts)).toList ++ rest)).isOk = false := by
  cases ts with
  | nil => exact absurd (List.forall_mem_nil _) hsome
  | cons t ts =>
    obtain ⟨hfirst, hothers⟩ := max_le_iff.1 hdepth
    rw [partsAll, List.forall_mem_append] at h hsome
    by_cases ht : ∀ s ∈ t.parts, s.Legible
    · -- The first item is read, so one of those behind the comma is refused.
      have hts : ¬ ∀ s ∈ partsAll ts, s.Legible := fun hall => hsome ⟨ht, hall⟩
      have hreads : Reader.Reads total room t.print.toList (.term t) :=
        (written_print ht hfirst).reads
      have hbounded (next : List Char) : Reader.Bounded (',' :: next) := by
        rintro _ ⟨⟩
        decide
      have hread : Reader.term total room
          ((String.intercalate ", " (printAll (t :: ts))).toList ++ rest) =
          .ok (t, ',' :: ' ' :: ((String.intercalate ", " (printAll ts)).toList ++ rest)) := by
        obtain ⟨u, us, rfl⟩ := List.exists_cons_of_ne_nil (ne_nil_of_not_legible hts)
        rw [printAll, printAll, String.intercalate_cons_cons]
        simpa [printAll] using hreads _ (hbounded _)
      exact items_refused_more hread (fun bound =>
        items_refused_blank (printAll_refused h.2 hothers hts rest bound)) bound
    · obtain ⟨more, hprint⟩ : ∃ more,
          (String.intercalate ", " (printAll (t :: ts))).toList ++ rest =
            t.print.toList ++ more := by
        cases ts <;> simp [printAll, String.intercalate_cons_cons]
      rw [hprint]
      exact items_refused_first (print_refused h.1 hfirst ht more) bound

end

end Refused

/-! ## Programs that were read -/

theorem Written.legibleOrName (h : Written Numeral room cs phrase) :
    ∀ s ∈ phrase.parts, s.LegibleOrName := by
  have hfloat (x : Float) : (float x).LegibleOrName := by
    by_cases hx : x.isFinite
    · exact .inl ⟨hx, Decimal.float?_write .display hx⟩
    · exact .inr ⟨x, rfl, hx⟩
  refine h.forall_parts (fun name hname => .inl ?_) (fun _ => .inl trivial) (fun _ t _ ht => ?_)
    (fun _ => .inl trivial) fun _ => .inl trivial
  · rw [Legible, String.toList_ofList]
    exact hname
  · cases ht with
    | int => exact .inl trivial
    | float | negative | word => exact hfloat _

theorem legible_iff_isFinite {t : Term} (h : ∀ s ∈ t.parts, s.LegibleOrName) :
    (∀ s ∈ t.parts, s.Legible) ↔ ∀ x, float x ∈ t.parts → x.isFinite := by
  refine ⟨fun hlegible x hx => (hlegible _ hx).1, fun hfinite s hs => ?_⟩
  rcases h s hs with hlegible | ⟨x, rfl, hx⟩
  · exact hlegible
  · exact absurd (hfinite x hs) hx

/-- A program that is one numeral. -/
theorem read_numeral {text : String} {n : Number} (hcs : IsNumeral text.toList)
    (hn : Reader.number? text.toList = some n) : read text = .ok (Reader.ofNumber n) := by
  have hnone : ∀ c ∈ ([] : List Char), Text.isBlank c := List.forall_mem_nil _
  exact (Written.of_number? hcs hn).read hnone hnone (List.append_nil _).symm

/-- **Programs that are printed as programs.** The numbers of a program that was read are finite if
and only if its numerals are in range. If they are, the same term is read from its print; if one is
not, the print is refused. -/
theorem reread_print {text : String} {t : Term} (h : read text = .ok t) :
    ((∀ x, float x ∈ t.parts → x.isFinite) ↔
        IsProgram (fun cs => Numeral cs ∧ InRange cs) text t) ∧
      ((∀ x, float x ∈ t.parts → x.isFinite) → read t.print = .ok t) ∧
      ((∃ x, float x ∈ t.parts ∧ ¬ x.isFinite) → (read t.print).isOk = false) := by
  obtain ⟨_, _, _, -, -, -, hcs⟩ := isProgram_of_read h
  have hdepth : t.depth ≤ maxTermDepth := hcs.depth_le
  have hparts : ∀ s ∈ t.parts, s.LegibleOrName := hcs.legibleOrName
  refine ⟨isFinite_iff_isProgram (isProgram_of_read h), fun hfinite => ?_, ?_⟩
  · have hlegible := (legible_iff_isFinite hparts).2 hfinite
    have hnone : ∀ c ∈ ([] : List Char), Text.isBlank c := List.forall_mem_nil _
    exact (written_print hlegible hdepth).read hnone hnone (List.append_nil _).symm
  · rintro ⟨x, hx, hinfinite⟩
    have hsome : ¬ ∀ s ∈ t.parts, s.Legible := fun hlegible =>
      hinfinite ((legible_iff_isFinite hparts).1 hlegible x hx)
    have hrefused := @print_refused t.print.length _ t hparts hdepth hsome []
    rw [List.append_nil] at hrefused
    exact isOk_bind hrefused

/-- The greatest finite number. -/
theorem reread_print_greatest :
    let t : Term := .float (Float.ofBits 0x7fefffffffffffff)
    read "1.7976931348623158e308" = .ok t ∧
      IsProgram (fun cs => Numeral cs ∧ InRange cs) "1.7976931348623158e308" t ∧
      read t.print = .ok t := by
  intro t
  have hnumber : Reader.number? "1.7976931348623158e308".toList =
      some (.float (Float.ofBits 0x7fefffffffffffff)) := by
    have hfloat : Decimal.float? "1.7976931348623158e308".toList =
        some (Float.ofBits 0x7fefffffffffffff) := by decide +kernel
    rw [Reader.number?, if_pos (by decide), hfloat]
    rfl
  have hread : read "1.7976931348623158e308" = .ok t :=
    read_numeral ⟨⟨'1', rfl, by decide⟩, by decide⟩ hnumber
  have hfinite : ∀ x, float x ∈ t.parts → x.isFinite := by
    intro x hx
    have heq : x = Float.ofBits 0x7fefffffffffffff := by simpa [t, parts] using hx
    rw [heq]
    decide +kernel
  obtain ⟨hranged, hprint, -⟩ := reread_print hread
  exact ⟨hread, hranged.1 hfinite, hprint hfinite⟩

/-- A numeral out of range is read, and the term is printed by a name that is not. -/
theorem reread_print_infinite :
    let t : Term := .float Decimal.Numeral.infinity
    read "1e400" = .ok t ∧ (∃ x, float x ∈ t.parts ∧ ¬ x.isFinite) ∧ t.print = "inf" ∧
      read t.print = .error (.malformed 0 "unexpected `i`") := by
  intro t
  have hnumber : Reader.number? "1e400".toList = some (.float Decimal.Numeral.infinity) := by
    have hfloat : Decimal.float? "1e400".toList = some Decimal.Numeral.infinity := by
      decide +kernel
    rw [Reader.number?, if_pos (by decide), hfloat]
    rfl
  have hread : read "1e400" = .ok t :=
    read_numeral ⟨⟨'1', rfl, by decide⟩, by decide⟩ hnumber
  have hprint : t.print = "inf" := by decide +kernel
  refine ⟨hread, ⟨_, List.mem_singleton_self _, by decide +kernel⟩, hprint, ?_⟩
  rw [hprint]
  rfl

end MessageSelector.Term
