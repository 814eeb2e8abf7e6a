import MessageSelector.Proofs.NumberText

/-!
# The language of terms

The texts of terms, as a relation between characters and what they are written for (`Written`).
Blanks may stand around every item of a sequence. The number of sequences that may nest is an index
of the relation, as it is an argument of the reader.

The reader finds the term of every such text, whatever follows it (`Written.reads`), unless the text
is a numeral and what follows goes on with it (`Reader.Bounded`).
-/

namespace MessageSelector

open Text (isBlank skipBlanks)

namespace Term

/-- A term, or the items of a sequence. -/
inductive Phrase where
  | term (t : Term)
  | items (ts : List Term)

/-- The characters between the quotes of a binary string, and the string. -/
inductive BinaryBody : List Char → List Char → Prop
  | nil : BinaryBody [] []
  | escaped {c : Char} {body s : List Char} : BinaryBody body s →
    BinaryBody ('\\' :: c :: body) (c :: s)
  | plain {c : Char} {body s : List Char} : c ≠ '"' → c ≠ '\\' → BinaryBody body s →
    BinaryBody (c :: body) (c :: s)

/-- The characters are a text of a term or of items, in which at most `room` sequences nest and
every number is written with characters that `numeral` holds of. -/
inductive Written (numeral : List Char → Prop) : (room : Nat) → List Char → Phrase → Prop
  | atom {room : Nat} {name : List Char} : '\'' ∉ name →
    Written numeral room ('\'' :: (name ++ ['\''])) (.term (.atom (String.ofList name)))
  | binary {room : Nat} {body s : List Char} : BinaryBody body s →
    Written numeral room ('<' :: '<' :: '"' :: (body ++ ['"', '>', '>']))
      (.term (.binary (String.ofList s)))
  | number {room : Nat} {cs : List Char} {t : Term} : numeral cs → NumberText cs t →
    Written numeral room cs (.term t)
  | tuple {room : Nat} {cs : List Char} {ts : List Term} : Written numeral room cs (.items ts) →
    Written numeral (room + 1) ('\x7b' :: (cs ++ ['\x7d'])) (.term (.tuple ts))
  | list {room : Nat} {cs : List Char} {ts : List Term} : Written numeral room cs (.items ts) →
    Written numeral (room + 1) ('[' :: (cs ++ [']'])) (.term (.list ts))
  | empty {room : Nat} {blanks : List Char} : (∀ c ∈ blanks, isBlank c) →
    Written numeral room blanks (.items [])
  | last {room : Nat} {before cs after : List Char} {t : Term} :
    (∀ c ∈ before, isBlank c) → Written numeral room cs (.term t) → (∀ c ∈ after, isBlank c) →
      Written numeral room (before ++ (cs ++ after)) (.items [t])
  | more {room : Nat} {before cs after rest : List Char} {t : Term} {ts : List Term} :
    (∀ c ∈ before, isBlank c) → Written numeral room cs (.term t) → (∀ c ∈ after, isBlank c) →
      Written numeral room rest (.items ts) → ts ≠ [] →
      Written numeral room (before ++ (cs ++ (after ++ ',' :: rest))) (.items (t :: ts))

/-- A numeral is written for the number that it is read as. -/
theorem Written.of_number? {room : Nat} {cs : List Char} (hcs : IsNumeral cs) {n : Number}
    (hn : Reader.number? cs = some n) : Written IsNumeral room cs (.term (Reader.ofNumber n)) :=
  .number hcs ((numberText_iff (numeral_iff.2 hcs).shape).2 ⟨n, hn, rfl⟩)

/-- Items may have more blanks in front. -/
theorem Written.blanks_items {numeral : List Char → Prop} {room : Nat} {blanks cs : List Char}
    {ts : List Term} (hblanks : ∀ c ∈ blanks, isBlank c) (h : Written numeral room cs (.items ts)) :
    Written numeral room (blanks ++ cs) (.items ts) := by
  have hall {before : List Char} (hbefore : ∀ c ∈ before, isBlank c) :
      ∀ c ∈ blanks ++ before, isBlank c :=
    List.forall_mem_append.2 ⟨hblanks, hbefore⟩
  cases h with
  | empty hafter => exact .empty (hall hafter)
  | last hbefore ht hafter =>
    rw [← List.append_assoc]
    exact .last (hall hbefore) ht hafter
  | more hbefore ht hafter hmore hne =>
    rw [← List.append_assoc]
    exact .more (hall hbefore) ht hafter hmore hne

/-! ## Parts of the reader -/

theorem skipBlanks_append {blanks : List Char} (h : ∀ c ∈ blanks, isBlank c) (rest : List Char) :
    skipBlanks (blanks ++ rest) = skipBlanks rest := by
  induction blanks with
  | nil => rfl
  | cons c blanks ih =>
    rw [List.cons_append, skipBlanks, if_pos (h c List.mem_cons_self)]
    exact ih fun d hd => h d (List.mem_cons_of_mem _ hd)

theorem skipBlanks_cons {c : Char} (h : isBlank c = false) (rest : List Char) :
    skipBlanks (c :: rest) = c :: rest := by
  rw [skipBlanks, h]
  rfl

theorem skipBlanks_skipBlanks (cs : List Char) : skipBlanks (skipBlanks cs) = skipBlanks cs := by
  induction cs with
  | nil => rfl
  | cons c rest ih =>
    rw [skipBlanks]
    split
    · exact ih
    · next h => exact skipBlanks_cons (by simpa using h) rest

namespace Reader

theorem atomName?_append {name : List Char} (h : '\'' ∉ name) (rest : List Char) :
    atomName? (name ++ '\'' :: rest) = some (name, rest) := by
  induction name with
  | nil => rfl
  | cons c name ih =>
    rw [List.mem_cons, not_or] at h
    rw [List.cons_append, atomName?, if_neg (Ne.symm h.1), ih h.2]
    rfl

theorem binaryBody?_append {body s : List Char} (h : BinaryBody body s) (rest : List Char) :
    binaryBody? (body ++ '"' :: rest) = some (s, rest) := by
  induction h with
  | nil => rfl
  | escaped _ ih => rw [List.cons_append, List.cons_append, binaryBody?, ih]; rfl
  | @plain c body s hquote hback _ ih =>
    rw [List.cons_append, binaryBody?.eq_4, if_neg hquote, ih]
    · rfl
    · exact fun hc => absurd hc hback
    · exact fun _ _ hc => absurd hc hback

/-- Whether a character can belong to a numeral behind its first one. -/
def isNumeralChar (c : Char) : Bool :=
  c.isDigit || c = '.' || isMark c || c = '+' || c = '-'

/-- What follows does not go on with a numeral. -/
def Bounded (rest : List Char) : Prop :=
  ∀ c, rest.head? = some c → isNumeralChar c = false

theorem numeralLength_append {rest : List Char} (hrest : Bounded rest) {cs : List Char}
    {afterMark : Bool} (h : numeralLength afterMark cs = cs.length) :
    numeralLength afterMark (cs ++ rest) = cs.length := by
  induction cs generalizing afterMark with
  | nil =>
    cases rest with
    | nil => rfl
    | cons c rest =>
      have hc := hrest c rfl
      simp only [isNumeralChar, Bool.or_eq_false_iff] at hc
      rw [List.nil_append, numeralLength]
      simp [hc]
  | cons c cs ih =>
    rw [List.cons_append, numeralLength]
    rw [numeralLength] at h
    split at h
    · next hc => rw [if_pos hc, ih (Nat.succ.inj h), List.length_cons]
    · cases h

theorem signedNumeralLength_append {rest : List Char} (hrest : Bounded rest) {cs : List Char}
    (h : IsNumeral cs) : signedNumeralLength (cs ++ rest) = cs.length := by
  obtain ⟨⟨c, hc, -⟩, hwhole⟩ := h
  cases cs with
  | nil => cases hc
  | cons c cs =>
    rw [List.cons_append]
    by_cases hminus : c = '-'
    · subst hminus
      rw [signedNumeralLength] at hwhole ⊢
      rw [numeralLength_append hrest (Nat.succ.inj hwhole), List.length_cons]
    · rw [signedNumeralLength.eq_2 _ (fun _ h => absurd (List.cons.inj h).1 hminus)] at hwhole ⊢
      exact numeralLength_append hrest hwhole

/-! ## Reading what is written -/

theorem isBlank_eq_false_of_isDigit {c : Char} (h : c.isDigit) : isBlank c = false := by
  obtain ⟨d, hd, rfl⟩ := Decimal.eq_digitChar_of_isDigit h
  clear h
  revert d
  decide

theorem isNumeralChar_eq_false_of_isBlank {c : Char} (h : isBlank c) : isNumeralChar c = false := by
  rw [← Bool.not_eq_true]
  intro hc
  simp only [isNumeralChar, isMark, Bool.or_eq_true, decide_eq_true_eq] at hc
  rcases hc with (((hc | rfl) | rfl | rfl) | rfl) | rfl
  · rw [isBlank_eq_false_of_isDigit hc] at h
    cases h
  all_goals exact absurd h (by decide)

/-- Blanks, and a character that does not go on with a numeral, do not go on with it. -/
theorem bounded_append {blanks : List Char} (h : ∀ c ∈ blanks, isBlank c) {c : Char}
    (hc : isNumeralChar c = false) (rest : List Char) : Bounded (blanks ++ c :: rest) := by
  intro d hd
  cases blanks with
  | nil =>
    cases hd
    exact hc
  | cons b blanks =>
    obtain rfl : b = d := Option.some.inj hd
    exact isNumeralChar_eq_false_of_isBlank (h b List.mem_cons_self)

variable {total room : Nat}

/-- The reader takes the characters for the phrase. -/
def Reads (total room : Nat) (cs : List Char) : Phrase → Prop
  | .term t => ∀ rest, Bounded rest → term total room (cs ++ rest) = .ok (t, rest)
  | .items ts => ts ≠ [] → ∀ close rest bound, close = '\x7d' ∨ close = ']' → ts.length ≤ bound →
    items total (term total room) close bound (cs ++ close :: rest) = .ok (ts, rest)

theorem term_skipBlanks (left : List Char) :
    term total room (skipBlanks left) = term total room left := by
  cases room <;> simp only [term, skipBlanks_skipBlanks]

theorem term_append {blanks : List Char} (h : ∀ c ∈ blanks, isBlank c) (left : List Char) :
    term total room (blanks ++ left) = term total room left := by
  rw [← term_skipBlanks, skipBlanks_append h, term_skipBlanks]

theorem items_skipBlanks {close : Char} {bound : Nat} (left : List Char) :
    items total (term total room) close (bound + 1) (skipBlanks left) =
      items total (term total room) close (bound + 1) left := by
  rw [items, items, term_skipBlanks]

/-- Whether a term can start with a character. -/
def isTermHead (c : Char) : Bool :=
  c = '\'' || c = '<' || c = '\x7b' || c = '[' || c = '-' || c.isDigit

theorem isBlank_eq_false_of_isTermHead {c : Char} (h : isTermHead c) : isBlank c = false := by
  simp only [isTermHead, Bool.or_eq_true, decide_eq_true_eq] at h
  rcases h with ((((rfl | rfl) | rfl) | rfl) | rfl) | h
  case inr => exact isBlank_eq_false_of_isDigit h
  all_goals decide

end Reader

open Reader

variable {total room : Nat}

/-- The text of a term starts with a character that tells what follows. -/
theorem Written.head {cs : List Char} {t : Term} (h : Written IsNumeral room cs (.term t)) :
    ∃ c rest, cs = c :: rest ∧ isTermHead c := by
  generalize hphrase : Phrase.term t = phrase at h
  cases h with
  | atom | binary | tuple | list => exact ⟨_, _, rfl, by decide⟩
  | number hcs =>
    obtain ⟨c, hc, hsign⟩ := hcs.head
    obtain ⟨rest, rfl⟩ : ∃ rest, cs = c :: rest := List.head?_eq_some_iff.1 hc
    exact ⟨c, rest, rfl, by rcases hsign with rfl | hdigit <;> simp [isTermHead, *]⟩
  | empty | last | more => cases hphrase

/-- A sequence has no more items than characters. -/
theorem Written.length_items_le {cs : List Char} {ts : List Term}
    (h : Written IsNumeral room cs (.items ts)) (rest : List Char) :
    ts.length ≤ (skipBlanks (cs ++ rest)).length := by
  generalize hphrase : Phrase.items ts = phrase at h
  induction h generalizing ts with
  | atom | binary | number | tuple | list => cases hphrase
  | empty =>
    cases hphrase
    exact Nat.zero_le _
  | last hbefore ht _ =>
    cases hphrase
    obtain ⟨c, cs, rfl, hc⟩ := ht.head
    simp only [List.append_assoc, List.cons_append, skipBlanks_append hbefore,
      skipBlanks_cons (isBlank_eq_false_of_isTermHead hc), List.length_cons, List.length_nil]
    omega
  | @more _ _ _ _ more _ ts hbefore ht _ _ _ _ ih =>
    cases hphrase
    obtain ⟨c, cs, rfl, hc⟩ := ht.head
    have hle := ih rfl
    have hskip := Text.length_skipBlanks_le (more ++ rest)
    simp only [List.append_assoc, List.cons_append, skipBlanks_append hbefore,
      skipBlanks_cons (isBlank_eq_false_of_isTermHead hc), List.length_cons, List.length_append]
      at hle hskip ⊢
    omega

/-- The first item of a sequence starts with a character that tells what follows. -/
theorem Written.head_items {cs : List Char} {ts : List Term}
    (h : Written IsNumeral room cs (.items ts)) (hne : ts ≠ []) (rest : List Char) :
    ∃ c more, skipBlanks (cs ++ rest) = c :: more ∧ isTermHead c := by
  cases h with
  | empty => exact absurd rfl hne
  | last hbefore ht _ | more hbefore ht _ _ _ =>
    obtain ⟨c, cs, rfl, hc⟩ := ht.head
    simp only [List.append_assoc, List.cons_append, skipBlanks_append hbefore,
      skipBlanks_cons (isBlank_eq_false_of_isTermHead hc)]
    exact ⟨c, _, rfl, hc⟩

/-- What is read behind an opening bracket. -/
theorem Written.sequence_reads {cs : List Char} {ts : List Term}
    (h : Written IsNumeral room cs (.items ts)) (hreads : Reads total room cs (.items ts))
    {close : Char} (hclose : close = '\x7d' ∨ close = ']') (rest : List Char) :
    sequence total (Reader.term total room) close (cs ++ close :: rest) = .ok (ts, rest) := by
  by_cases hne : ts = []
  · subst hne
    cases h with
    | empty hblanks =>
      have hskip : skipBlanks (close :: rest) = close :: rest :=
        skipBlanks_cons (by rcases hclose with rfl | rfl <;> decide) rest
      rw [Reader.sequence, skipBlanks_append hblanks, hskip]
      exact if_pos rfl
  · obtain ⟨c, more, hskip, hc⟩ := h.head_items hne (close :: rest)
    have hlength := h.length_items_le (close :: rest)
    have hother : c ≠ close := by
      rintro rfl
      rcases hclose with rfl | rfl <;> exact absurd hc (by decide)
    rw [hskip] at hlength
    rw [Reader.sequence, hskip]
    simp only [hother, ↓reduceIte, List.length_cons]
    rw [← hskip, items_skipBlanks]
    exact hreads hne close rest _ hclose hlength

/-- **The reader accepts what is written.** -/
theorem Written.reads {cs : List Char} {phrase : Phrase} (h : Written IsNumeral room cs phrase) :
    Reads total room cs phrase := by
  induction h with
  | @atom room name hname =>
    intro rest _
    rw [List.cons_append, List.append_assoc, term, skipBlanks_cons (by decide)]
    simp [Reader.atom, atomName?_append hname]
  | @binary room body s hbody =>
    intro rest _
    simp only [List.cons_append, List.append_assoc]
    rw [term, skipBlanks_cons (by decide)]
    simp [Reader.binary, expect, bind, Except.bind, binaryBody?_append hbody, pure, Except.pure]
  | @number room cs t hcs ht =>
    intro rest hrest
    obtain ⟨n, hn, hterm⟩ := (numberText_iff (numeral_iff.2 hcs).shape).1 ht
    have hlength := signedNumeralLength_append hrest hcs
    obtain ⟨c, hc, hsign⟩ := hcs.head
    obtain ⟨more, rfl⟩ : ∃ more, cs = c :: more := List.head?_eq_some_iff.1 hc
    have hhead : isTermHead c := by rcases hsign with rfl | hdigit <;> simp [isTermHead, *]
    have hsigned : (c = '-' || c.isDigit) = true := by simpa using hsign
    -- No other kind of term starts as a number does.
    have hother : c ≠ '\'' ∧ c ≠ '<' ∧ c ≠ '\x7b' ∧ c ≠ '[' := by
      refine ⟨?_, ?_, ?_, ?_⟩ <;>
      · rintro rfl
        exact absurd hsigned (by decide)
    rw [List.cons_append, term, skipBlanks_cons (isBlank_eq_false_of_isTermHead hhead)]
    simp only [hother, hsigned, ↓reduceIte]
    rw [Reader.number, ← List.cons_append, hlength, List.take_left, List.drop_left, hn, ← hterm]
  | @tuple room cs ts hitems ih =>
    intro rest _
    have hsequence := hitems.sequence_reads ih (.inl rfl) rest
    rw [List.cons_append, List.append_assoc, term, skipBlanks_cons (by decide)]
    simp [hsequence, Except.map]
  | @list room cs ts hitems ih =>
    intro rest _
    have hsequence := hitems.sequence_reads ih (.inr rfl) rest
    rw [List.cons_append, List.append_assoc, term, skipBlanks_cons (by decide)]
    simp [hsequence, Except.map]
  | empty => exact fun hne => absurd rfl hne
  | @last room before cs after t hbefore ht hafter ih =>
    intro _ close rest bound hclose hbound
    obtain ⟨bound, rfl⟩ := Nat.exists_eq_add_of_lt (Nat.lt_of_lt_of_le Nat.zero_lt_one hbound)
    have hend : isBlank close = false ∧ isNumeralChar close = false ∧ close ≠ ',' := by
      rcases hclose with rfl | rfl <;> decide
    have hterm := ih (after ++ close :: rest) (bounded_append hafter hend.2.1 rest)
    rw [items, List.append_assoc, term_append hbefore, List.append_assoc, hterm]
    simp only [Except.bind, bind, skipBlanks_append hafter, skipBlanks_cons hend.1, hend.2.2,
      ↓reduceIte]
    rfl
  | @more room before cs after more t ts hbefore ht hafter hmore hne ih ihmore =>
    intro _ close rest bound hclose hbound
    obtain ⟨bound, rfl⟩ := Nat.exists_eq_add_of_lt (Nat.lt_of_lt_of_le (Nat.zero_lt_succ _) hbound)
    have hterm := ih (after ++ ',' :: (more ++ close :: rest))
      (bounded_append hafter (by decide) _)
    have hitems := ihmore hne close rest (0 + bound) hclose (by simpa using hbound)
    rw [items]
    simp only [List.append_assoc, List.cons_append, term_append hbefore, hterm]
    simp only [Except.bind, bind, skipBlanks_append hafter,
      skipBlanks_cons (show isBlank ',' = false by decide), ↓reduceIte, hitems]
    rfl

/-- A text that is written for a term with blanks around it is read as this term. -/
theorem Written.read {text : String} {before cs after : List Char} {t : Term}
    (h : Written IsNumeral maxTermDepth cs (.term t)) (hbefore : ∀ c ∈ before, isBlank c)
    (hafter : ∀ c ∈ after, isBlank c) (htext : text.toList = before ++ (cs ++ after)) :
    Term.read text = .ok t := by
  have hbounded : Bounded after := by
    intro c hc
    exact isNumeralChar_eq_false_of_isBlank (hafter c (List.mem_of_mem_head? hc))
  have hterm := @Written.reads text.length maxTermDepth cs (.term t) h after hbounded
  have hend : skipBlanks after = [] := by
    rw [← List.append_nil after, skipBlanks_append hafter, skipBlanks]
  rw [Term.read, htext, term_append hbefore, hterm]
  simp only [bind, Except.bind, hend]
  rfl

end Term

end MessageSelector
