import MessageSelector.Proofs.Tables
import MessageSelector.Proofs.TermLanguage

/-!
# The reader accepts the language of terms and nothing else

What the reader takes off the front of a text is blanks and a text of the term it answers with
(`Reader.takesTerm`), by induction on the sequences that may still nest and, inside a sequence, on
the items that may still follow. Together with the reading of what is written this determines the
accepted programs (`read_eq_ok_iff_isProgram`): they are the texts of one term with blanks around it
(`IsProgram`).
-/

namespace MessageSelector

open Text (isBlank skipBlanks)

namespace Term

/-! ## Parts of the reader -/

theorem skipBlanks_split (cs : List Char) :
    ∃ blanks, cs = blanks ++ skipBlanks cs ∧ ∀ c ∈ blanks, isBlank c := by
  induction cs with
  | nil => exact ⟨[], rfl, List.forall_mem_nil _⟩
  | cons c cs ih =>
    rw [skipBlanks]
    split
    · next hc =>
      obtain ⟨blanks, hcs, hblanks⟩ := ih
      exact ⟨c :: blanks, congrArg (c :: ·) hcs, List.forall_mem_cons.2 ⟨hc, hblanks⟩⟩
    · exact ⟨[], rfl, List.forall_mem_nil _⟩

namespace Reader

theorem map_eq_ok {ε α β : Type} {x : Except ε α} {f : α → β} {b : β} :
    x.map f = .ok b ↔ ∃ a, x = .ok a ∧ f a = b := by
  cases x <;> simp [Except.map]

theorem expect_ok {total : Nat} {wanted left rest : List Char}
    (h : expect total wanted left = .ok rest) : left = wanted ++ rest := by
  induction wanted generalizing left with
  | nil =>
    cases h
    rfl
  | cons want wanted ih =>
    cases left with
    | nil => cases h
    | cons c left =>
      rw [expect] at h
      split at h
      · next hc => rw [hc, ih h, List.cons_append]
      · cases h

theorem atomName?_split {left name rest : List Char} (h : atomName? left = some (name, rest)) :
    left = name ++ '\'' :: rest ∧ '\'' ∉ name := by
  induction left generalizing name with
  | nil => cases h
  | cons c left ih =>
    rw [atomName?] at h
    split at h
    · next hc =>
      cases h
      exact ⟨congrArg (· :: rest) hc, List.not_mem_nil⟩
    · next hc =>
      obtain ⟨⟨more, rest⟩, hmore, heq⟩ := Option.map_eq_some_iff.1 h
      cases heq
      obtain ⟨hleft, hnot⟩ := ih hmore
      refine ⟨congrArg (c :: ·) hleft, ?_⟩
      rw [List.mem_cons, not_or]
      exact ⟨Ne.symm hc, hnot⟩

theorem binaryBody?_split {left s rest : List Char} (h : binaryBody? left = some (s, rest)) :
    ∃ body, left = body ++ '"' :: rest ∧ BinaryBody body s := by
  fun_induction binaryBody? left generalizing s with
  | case1 => cases h
  | case2 => cases h
  | case3 c left ih =>
    obtain ⟨⟨more, rest⟩, hmore, heq⟩ := Option.map_eq_some_iff.1 h
    cases heq
    obtain ⟨body, hleft, hbody⟩ := ih hmore
    exact ⟨'\\' :: c :: body, by rw [hleft]; rfl, .escaped hbody⟩
  | case4 left =>
    cases h
    exact ⟨[], rfl, .nil⟩
  | case5 c left hlast hescape hquote ih =>
    obtain ⟨⟨more, rest⟩, hmore, heq⟩ := Option.map_eq_some_iff.1 h
    cases heq
    obtain ⟨body, hleft, hbody⟩ := ih hmore
    have hback : c ≠ '\\' := by
      rintro rfl
      cases left with
      | nil => exact hlast rfl rfl
      | cons d left => exact hescape d left rfl rfl
    exact ⟨c :: body, by rw [hleft]; rfl, .plain hquote hback hbody⟩

theorem numeralLength_take (afterMark : Bool) (cs : List Char) :
    numeralLength afterMark (cs.take (numeralLength afterMark cs)) =
      (cs.take (numeralLength afterMark cs)).length := by
  induction cs generalizing afterMark with
  | nil => rfl
  | cons c cs ih =>
    rw [numeralLength]
    split
    · next hc => rw [List.take_succ_cons, numeralLength, if_pos hc, ih, List.length_cons]
    · rfl

/-- What the reader takes for a numeral is one, if it starts like one. -/
theorem isNumeral_take {c : Char} (hc : c = '-' ∨ c.isDigit) (rest : List Char) :
    IsNumeral ((c :: rest).take (signedNumeralLength (c :: rest))) := by
  by_cases hminus : c = '-'
  · subst hminus
    rw [signedNumeralLength, List.take_succ_cons]
    refine ⟨⟨'-', rfl, hc⟩, ?_⟩
    rw [signedNumeralLength, numeralLength_take, List.length_cons]
  · have hdigit : c.isDigit := hc.resolve_left hminus
    have hunsigned (cs : List Char) :
        signedNumeralLength (c :: cs) = numeralLength false (c :: cs) :=
      signedNumeralLength.eq_2 _ fun _ h => absurd (List.cons.inj h).1 hminus
    have htake := numeralLength_take false (c :: rest)
    have hlength : numeralLength false (c :: rest) = numeralLength (isMark c) rest + 1 := by
      rw [numeralLength, if_pos (by simp [hdigit])]
    rw [hunsigned, hlength, List.take_succ_cons]
    rw [hlength, List.take_succ_cons] at htake
    exact ⟨⟨c, rfl, hc⟩, by rw [hunsigned, htake]⟩

/-! ## What is taken -/

variable {total room : Nat}

/-- A reader of terms takes blanks and a text of the term off the front. -/
def TakesTerm (room : Nat) (read : List Char → Except ProgramError (Term × List Char)) : Prop :=
  ∀ left t rest, read left = .ok (t, rest) →
    ∃ blanks cs, left = blanks ++ (cs ++ rest) ∧ (∀ c ∈ blanks, isBlank c) ∧
      Written IsNumeral room cs (.term t)

theorem number_takes {c : Char} (hc : c = '-' ∨ c.isDigit) {left rest : List Char} {t : Term}
    (h : number total (c :: left) = .ok (t, rest)) :
    ∃ cs, c :: left = cs ++ rest ∧ Written IsNumeral room cs (.term t) := by
  rw [number] at h
  split at h
  · next n hn =>
    cases h
    exact ⟨_, (List.take_append_drop _ _).symm, .of_number? (isNumeral_take hc left) hn⟩
  · cases h

theorem atom_takes {left rest : List Char} {t : Term} (h : atom total left = .ok (t, rest)) :
    ∃ cs, '\'' :: left = cs ++ rest ∧ Written IsNumeral room cs (.term t) := by
  rw [atom] at h
  split at h
  · next name rest' hname =>
    cases h
    obtain ⟨hleft, hnot⟩ := atomName?_split hname
    exact ⟨'\'' :: (name ++ ['\'']), by simp [hleft], .atom hnot⟩
  · cases h

theorem binary_takes {left rest : List Char} {t : Term} (h : binary total left = .ok (t, rest)) :
    ∃ cs, left = cs ++ rest ∧ Written IsNumeral room cs (.term t) := by
  obtain ⟨opened, hopen, h⟩ := bind_eq_ok.1 h
  have hleft := expect_ok hopen
  split at h
  · cases h
  · next body closed hbody =>
    obtain ⟨text, hopened, htext⟩ := binaryBody?_split hbody
    obtain ⟨rest', hclose, h⟩ := bind_eq_ok.1 h
    cases h
    have hclosed := expect_ok hclose
    exact ⟨_, by simp [hleft, hopened, hclosed], .binary htext⟩

variable {read : List Char → Except ProgramError (Term × List Char)} {close : Char}

/-- The induction is on the items that may still follow: behind a comma stands at least one more. -/
theorem items_takes (hread : TakesTerm room read) {bound : Nat} {left rest : List Char}
    {ts : List Term} (h : items total read close bound left = .ok (ts, rest)) :
    ts ≠ [] ∧ ∃ cs, left = cs ++ close :: rest ∧ Written IsNumeral room cs (.items ts) := by
  induction bound generalizing left ts with
  | zero => cases h
  | succ bound ih =>
    rw [items] at h
    obtain ⟨⟨t, afterTerm⟩, ht, h⟩ := bind_eq_ok.1 h
    obtain ⟨before, cs, hleft, hbefore, hcs⟩ := hread _ _ _ ht
    obtain ⟨after, hafterTerm, hafter⟩ := skipBlanks_split afterTerm
    simp only at h
    split at h
    · cases h
    · next c next hskip =>
      rw [hskip] at hafterTerm
      split at h
      · next hcomma =>
        obtain ⟨⟨more, rest'⟩, hmore, h⟩ := bind_eq_ok.1 h
        cases h
        obtain ⟨hne, following, hnext, hfollowing⟩ := ih hmore
        refine ⟨List.cons_ne_nil _ _, before ++ (cs ++ (after ++ ',' :: following)), ?_,
          .more hbefore hcs hafter hfollowing hne⟩
        rw [hleft, hafterTerm, hcomma, hnext]
        simp
      · split at h
        · next hend =>
          cases h
          refine ⟨List.cons_ne_nil _ _, before ++ (cs ++ after), ?_, .last hbefore hcs hafter⟩
          rw [hleft, hafterTerm, hend]
          simp
        · cases h

theorem sequence_takes (hread : TakesTerm room read) {left rest : List Char} {ts : List Term}
    (h : sequence total read close left = .ok (ts, rest)) :
    ∃ cs, left = cs ++ close :: rest ∧ Written IsNumeral room cs (.items ts) := by
  obtain ⟨blanks, hleft, hblanks⟩ := skipBlanks_split left
  rw [sequence] at h
  split at h
  · next c next hskip =>
    split at h
    · next hend =>
      cases h
      rw [hskip, hend] at hleft
      exact ⟨blanks, hleft, .empty hblanks⟩
    · obtain ⟨-, cs, hnext, hcs⟩ := items_takes hread h
      rw [hskip, hnext] at hleft
      exact ⟨blanks ++ cs, by rw [hleft, List.append_assoc], hcs.blanks_items hblanks⟩
  · cases h

/-- A term is taken, if its items are, which fewer sequences may hold. -/
theorem term_takes (hitems : ∀ fewer, room = fewer + 1 → TakesTerm fewer (term total fewer)) :
    TakesTerm room (term total room) := by
  intro left t rest h
  obtain ⟨blanks, hleft, hblanks⟩ := skipBlanks_split left
  suffices htaken : ∃ cs, skipBlanks left = cs ++ rest ∧ Written IsNumeral room cs (.term t) by
    obtain ⟨cs, hskip, hcs⟩ := htaken
    exact ⟨blanks, cs, by rw [← hskip, ← hleft], hblanks, hcs⟩
  rw [term.eq_def] at h
  split at h
  · cases h
  · next c next hskip =>
    rw [hskip]
    split at h
    · next hc =>
      rw [hc]
      exact atom_takes h
    split at h
    · exact binary_takes h
    split at h
    · next hc =>
      rw [hc]
      split at h
      · cases h
      · next room =>
        obtain ⟨⟨ts, rest⟩, hsequence, heq⟩ := map_eq_ok.1 h
        cases heq
        obtain ⟨cs, hnext, hcs⟩ := sequence_takes (hitems room rfl) hsequence
        exact ⟨'\x7b' :: (cs ++ ['\x7d']), by simp [hnext], .tuple hcs⟩
    split at h
    · next hc =>
      rw [hc]
      split at h
      · cases h
      · next room =>
        obtain ⟨⟨ts, rest⟩, hsequence, heq⟩ := map_eq_ok.1 h
        cases heq
        obtain ⟨cs, hnext, hcs⟩ := sequence_takes (hitems room rfl) hsequence
        exact ⟨'[' :: (cs ++ [']']), by simp [hnext], .list hcs⟩
    split at h
    · next hc => exact number_takes (by simpa using hc) h
    · cases h

/-- **The reader accepts nothing else**, by induction on the sequences that may nest. -/
theorem takesTerm (total room : Nat) : TakesTerm room (term total room) := by
  induction room with
  | zero => exact term_takes nofun
  | succ room ih =>
    apply term_takes
    intro fewer hroom
    cases hroom
    exact ih

end Reader

/-! ## Programs -/

/-- The text of a program: a text of its term with blanks around it. -/
def IsProgram (numeral : List Char → Prop) (text : String) (t : Term) : Prop :=
  ∃ before cs after, text.toList = before ++ (cs ++ after) ∧ (∀ c ∈ before, isBlank c) ∧
    (∀ c ∈ after, isBlank c) ∧ Written numeral maxTermDepth cs (.term t)

theorem Written.mono {p q : List Char → Prop} (h : ∀ cs, p cs → q cs) {room : Nat}
    {cs : List Char} {phrase : Phrase} (hcs : Written p room cs phrase) :
    Written q room cs phrase := by
  induction hcs with
  | atom hname => exact .atom hname
  | binary hbody => exact .binary hbody
  | number hcs ht => exact .number (h _ hcs) ht
  | tuple _ ih => exact .tuple ih
  | list _ ih => exact .list ih
  | empty hblanks => exact .empty hblanks
  | last hbefore _ hafter ih => exact .last hbefore ih hafter
  | more hbefore _ hafter _ hne ih ihmore => exact .more hbefore ih hafter ihmore hne

theorem IsProgram.read {text : String} {t : Term} (h : IsProgram Numeral text t) :
    Term.read text = .ok t := by
  obtain ⟨before, cs, after, htext, hbefore, hafter, hcs⟩ := h
  exact (hcs.mono fun _ => numeral_iff.1).read hbefore hafter htext

theorem isProgram_of_read {text : String} {t : Term} (h : Term.read text = .ok t) :
    IsProgram Numeral text t := by
  obtain ⟨⟨t, left⟩, ht, h⟩ := bind_eq_ok.1 h
  obtain ⟨before, cs, htext, hbefore, hcs⟩ := Reader.takesTerm _ _ _ _ _ ht
  obtain ⟨after, hleft, hafter⟩ := skipBlanks_split left
  simp only at h
  split at h
  · next hend =>
    cases h
    rw [hend, List.append_nil] at hleft
    exact ⟨before, cs, after, by rw [← hleft]; exact htext, hbefore, hafter,
      hcs.mono fun _ => numeral_iff.2⟩
  · cases h

/-- **The language of programs.** A text is read as a term if and only if it is the text of this
term with blanks around it, where a numeral starts with its sign or a digit, and of no text this
holds for two terms. -/
theorem read_eq_ok_iff_isProgram (text : String) :
    (∀ t, read text = .ok t ↔ IsProgram Numeral text t) ∧
      ∀ t u, IsProgram Numeral text t → IsProgram Numeral text u → t = u := by
  refine ⟨fun t => ⟨isProgram_of_read, IsProgram.read⟩, ?_⟩
  intro t u ht hu
  have hread := ht.read.symm.trans hu.read
  exact Except.ok.inj hread

/-- A comma behind the last item, a missing and a wrong bracket, and text behind the term. -/
example : ∀ text ∈ ["\x7b1, \x7d", "[1", "[1\x7d", "1 2"], (read text).isOk = false := by
  decide +kernel

/-- A numeral may start with its point behind a sign, but not without one: `.5` is a numeral of the
same shape as `-.5` and denotes a number, yet no term starts with a point. -/
theorem read_point_first :
    ¬ ∀ text t, read text = .ok t ↔ IsProgram NumeralShape text t := by
  intro h
  have hnumber : Reader.number? ['.', '5'] = some (.float 0.5) := by
    have hfloat : Decimal.float? ['.', '5'] = some 0.5 := by decide +kernel
    rw [Reader.number?, if_pos (by decide), hfloat]
    rfl
  have hshape : NumeralShape ['.', '5'] := .plain (.point (.digit (by decide) .nil))
  have htext : NumberText ['.', '5'] (.float 0.5) := (numberText_iff hshape).2 ⟨_, hnumber, rfl⟩
  have hblanks : ∀ c ∈ ([] : List Char), isBlank c := List.forall_mem_nil _
  have hprogram : IsProgram NumeralShape ".5" (.float 0.5) :=
    ⟨[], ['.', '5'], [], rfl, hblanks, hblanks, .number hshape htext⟩
  have hread := (h _ _).2 hprogram
  have hrefused : read ".5" = .error (.malformed 0 "unexpected `.`") := rfl
  rw [hrefused] at hread
  cases hread

end Term

end MessageSelector
