import MessageSelector.Like

/-!
# Regular expressions

The part of the language of regular expressions that patterns are translated to
(`RegularExpression`): characters, with a backslash in front of those that have a meaning of their
own, `.` and `.*`, the anchors `^` and `$`, and groups `(?s:…)`, inside which the point stands for
every character. An expression is read from its text (`read?`), and it is found in a subject if some
stretch of the subject matches it (`Matches`, `Found`).

What compiles and runs an expression is not described here; it conforms if it does what this meaning
says (`Conforms`).
-/

namespace MessageSelector

open Like (isMeta)

inductive RegularExpression where
  | empty
  | literal (c : Char)
  /-- `.` -/
  | any
  /-- `.*` -/
  | run
  /-- `^` -/
  | start
  /-- `$` -/
  | stop
  | seq (first second : RegularExpression)
  /-- `(?s:…)` -/
  | group (body : RegularExpression)
deriving DecidableEq, Repr

namespace RegularExpression

/-! ## Text -/

/-- Reads an expression from its text, given what stands before it in the innermost group and in the
groups around that one. -/
def readFrom : (outer : List RegularExpression) → (before : RegularExpression) → List Char →
    Option RegularExpression
  | [], before, [] => some before
  | _ :: _, _, [] => none
  | outer, before, '(' :: '?' :: 's' :: ':' :: rest => readFrom (before :: outer) .empty rest
  | around :: outer, before, ')' :: rest => readFrom outer (.seq around (.group before)) rest
  | outer, before, '\\' :: c :: rest =>
    if isMeta c then readFrom outer (.seq before (.literal c)) rest else none
  | outer, before, '.' :: '*' :: rest => readFrom outer (.seq before .run) rest
  | outer, before, '.' :: rest => readFrom outer (.seq before .any) rest
  | outer, before, '^' :: rest => readFrom outer (.seq before .start) rest
  | outer, before, '$' :: rest => readFrom outer (.seq before .stop) rest
  | outer, before, c :: rest =>
    if isMeta c then none else readFrom outer (.seq before (.literal c)) rest

def read? (text : List Char) : Option RegularExpression :=
  readFrom [] .empty text

theorem readFrom_escaped {outer : List RegularExpression} {before : RegularExpression} {c : Char}
    {rest : List Char} (h : isMeta c = true) :
    readFrom outer before ('\\' :: c :: rest) = readFrom outer (.seq before (.literal c)) rest := by
  rw [readFrom, if_pos h]

theorem readFrom_run {outer : List RegularExpression} {before : RegularExpression}
    {rest : List Char} :
    readFrom outer before ('.' :: '*' :: rest) = readFrom outer (.seq before .run) rest := by
  rw [readFrom]

theorem readFrom_any {outer : List RegularExpression} {before : RegularExpression}
    {rest : List Char} (h : rest.head? ≠ some '*') :
    readFrom outer before ('.' :: rest) = readFrom outer (.seq before .any) rest := by
  cases rest with
  | nil => rw [readFrom]; simp
  | cons c rest =>
    rw [readFrom]
    rintro _ ⟨⟩
    exact h rfl

theorem readFrom_literal {outer : List RegularExpression} {before : RegularExpression} {c : Char}
    {rest : List Char} (h : isMeta c = false) :
    readFrom outer before (c :: rest) = readFrom outer (.seq before (.literal c)) rest := by
  have hne {d : Char} (hd : isMeta d = true) : c ≠ d := by
    rintro rfl
    rw [h] at hd
    cases hd
  rw [readFrom, if_neg (by simp [h])]
  -- All characters with a case of their own have a meaning.
  all_goals
    intros
    exact absurd ‹c = _› (hne (by decide))

/-! ## Meaning -/

/-- Whether the point stands for a character: for a line feed only where it stands for all. -/
def Point (dotAll : Bool) (c : Char) : Prop :=
  dotAll = true ∨ c ≠ '\n'

instance (dotAll : Bool) (c : Char) : Decidable (Point dotAll c) :=
  inferInstanceAs (Decidable (_ ∨ _))

/-- The expression matches a stretch of a subject, given what stands before and behind it. -/
def Matches : RegularExpression → (dotAll : Bool) → (before stretch behind : List Char) → Prop
  | empty, _, _, stretch, _ => stretch = []
  | literal c, _, _, stretch, _ => stretch = [c]
  | any, dotAll, _, stretch, _ => ∃ c, stretch = [c] ∧ Point dotAll c
  | run, dotAll, _, stretch, _ => ∀ c ∈ stretch, Point dotAll c
  | start, _, before, stretch, _ => before = [] ∧ stretch = []
  | stop, _, _, stretch, behind => behind = [] ∧ stretch = []
  | seq first second, dotAll, before, stretch, behind => ∃ left right, stretch = left ++ right ∧
    first.Matches dotAll before left (right ++ behind) ∧
      second.Matches dotAll (before ++ left) right behind
  | group body, _, before, stretch, behind => body.Matches true before stretch behind

/-- Some stretch of the subject matches the expression. -/
def Found (r : RegularExpression) (subject : List Char) : Prop :=
  ∃ before stretch behind, subject = before ++ stretch ++ behind ∧
    r.Matches false before stretch behind

/-- Anchors on both sides of a group leave only the whole subject. -/
theorem found_anchored {body : RegularExpression} {subject : List Char} :
    (seq (seq (seq .empty .start) (.group body)) .stop).Found subject ↔
      body.Matches true [] subject [] := by
  constructor
  · rintro ⟨before, _, behind, rfl, _, _, rfl,
      ⟨_, stretch, rfl, ⟨_, _, rfl, hempty, hstart⟩, hbody⟩, hstop⟩
    obtain ⟨rfl, rfl⟩ := hstop
    obtain ⟨hbefore, rfl⟩ := hstart
    cases hempty
    rw [List.append_nil] at hbefore
    subst hbefore
    simpa [Matches] using hbody
  · intro h
    refine ⟨[], subject, [], by simp, subject, [], by simp, ⟨[], subject, rfl, ?_, h⟩, rfl, rfl⟩
    exact ⟨[], [], rfl, rfl, rfl, rfl⟩

/-- What compiles the text of an expression and runs it on subjects does so as the meaning says. It
may refuse texts that are too large for it. -/
structure Conforms (fits : String → Prop) (compile : String → Option (String → Bool)) : Prop where
  compiles : ∀ source r, read? source.toList = some r → fits source →
    ∃ isMatch, compile source = some isMatch
  isMatch_iff : ∀ source r isMatch, read? source.toList = some r →
    compile source = some isMatch →
      ∀ subject : String, isMatch subject = true ↔ r.Found subject.toList

/-! ## The meaning can be computed -/

def decMatches : (r : RegularExpression) → (dotAll : Bool) → (before stretch behind : List Char) →
    Decidable (r.Matches dotAll before stretch behind)
  | empty, _, _, stretch, _ => inferInstanceAs (Decidable (stretch = []))
  | literal c, _, _, stretch, _ => inferInstanceAs (Decidable (stretch = [c]))
  | any, dotAll, _, stretch, _ =>
    decidable_of_iff (∃ c ∈ stretch, stretch = [c] ∧ Point dotAll c)
      ⟨fun ⟨c, _, h⟩ => ⟨c, h⟩, fun ⟨c, h, hpoint⟩ => ⟨c, by simp [h], h, hpoint⟩⟩
  | run, dotAll, _, stretch, _ => inferInstanceAs (Decidable (∀ c ∈ stretch, Point dotAll c))
  | start, _, before, stretch, _ => inferInstanceAs (Decidable (before = [] ∧ stretch = []))
  | stop, _, _, stretch, behind => inferInstanceAs (Decidable (behind = [] ∧ stretch = []))
  | seq first second, dotAll, before, stretch, behind =>
    have (n : Nat) := decMatches first dotAll before (stretch.take n) (stretch.drop n ++ behind)
    have (n : Nat) := decMatches second dotAll (before ++ stretch.take n) (stretch.drop n) behind
    decidable_of_iff (∃ n, n < stretch.length + 1 ∧
        first.Matches dotAll before (stretch.take n) (stretch.drop n ++ behind) ∧
          second.Matches dotAll (before ++ stretch.take n) (stretch.drop n) behind)
      ⟨fun ⟨n, _, h⟩ => ⟨_, _, (List.take_append_drop n stretch).symm, h⟩,
        fun ⟨left, right, hsplit, h⟩ =>
          ⟨left.length, by rw [hsplit, List.length_append]; omega, by simpa [hsplit] using h⟩⟩
  | group body, _, before, stretch, behind => decMatches body true before stretch behind

instance (r : RegularExpression) (dotAll : Bool) (before stretch behind : List Char) :
    Decidable (r.Matches dotAll before stretch behind) :=
  r.decMatches dotAll before stretch behind

/-- A stretch that matches is found among those that start and end in the subject. -/
theorem exists_matches_iff_found {r : RegularExpression} {subject : List Char} :
    (∃ n, n < subject.length + 1 ∧ ∃ m, m < (subject.drop n).length + 1 ∧
      r.Matches false (subject.take n) ((subject.drop n).take m) ((subject.drop n).drop m)) ↔
      r.Found subject := by
  constructor
  · rintro ⟨n, -, m, -, h⟩
    exact ⟨_, _, _, by simp [List.append_assoc, -List.drop_drop], h⟩
  · rintro ⟨before, stretch, behind, hsplit, h⟩
    have hlength : subject.length = before.length + stretch.length + behind.length := by
      rw [hsplit, List.length_append, List.length_append]
    refine ⟨before.length, by omega, stretch.length, by rw [List.length_drop]; omega, ?_⟩
    simpa [hsplit] using h

instance (r : RegularExpression) (subject : List Char) : Decidable (r.Found subject) :=
  decidable_of_iff _ exists_matches_iff_found

/-- Compiles an expression to the search for a stretch that matches it. -/
def compile (source : String) : Option (String → Bool) :=
  (read? source.toList).map fun r subject => decide (r.Found subject.toList)

theorem conforms_compile : Conforms (fun _ => True) compile := by
  refine ⟨fun source r hread _ => ⟨_, by rw [compile, hread]; rfl⟩, ?_⟩
  intro source r isMatch hread hcompile subject
  rw [compile, hread] at hcompile
  cases hcompile
  exact decide_eq_true_iff

end RegularExpression

end MessageSelector
