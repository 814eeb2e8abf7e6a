import MessageSelector.Proofs.RegularExpression

/-!
# Patterns

What it is for a subject to be like a pattern is said on the characters of the pattern, from left to
right (`Likes`). Two things decide it: the table of the ends of the pattern that match, which is
computed from the end of the subject on (`matches?_iff`), and the regular expression that the
pattern is translated to (`compile_matches_iff_likes`). Both go through the pieces of the pattern,
and each piece takes a stretch of the subject (`Piece.Takes`).
-/

namespace MessageSelector.Like

/-- A subject is like a pattern with an optional escape character. -/
inductive Likes (escape : Option Char) : (pattern subject : List Char) → Prop
  | nil : Likes escape [] []
  /-- The character behind the escape character stands for itself, whatever it is. -/
  | escaped {e c : Char} {pattern subject : List Char} :
    escape = some e → Likes escape pattern subject → Likes escape (e :: c :: pattern) (c :: subject)
  /-- At the end of the pattern the escape character stands for itself. -/
  | lone {e : Char} : escape = some e → Likes escape [e] [e]
  | anyOne {c : Char} {pattern subject : List Char} :
    escape ≠ some '_' → Likes escape pattern subject → Likes escape ('_' :: pattern) (c :: subject)
  | anyRun {pattern subject : List Char} (run : List Char) :
    escape ≠ some '%' → Likes escape pattern subject →
      Likes escape ('%' :: pattern) (run ++ subject)
  | literal {c : Char} {pattern subject : List Char} :
    escape ≠ some c → c ≠ '_' → c ≠ '%' → Likes escape pattern subject →
      Likes escape (c :: pattern) (c :: subject)

/-! ## Pieces -/

/-- The piece matches a stretch of the subject. -/
def Piece.Takes : Piece → List Char → Prop
  | literal c, stretch => stretch = [c]
  | anyOne, stretch => ∃ c, stretch = [c]
  | anyRun, _ => True

/-- The pieces match stretches one behind the other. -/
def Matches : List Piece → List Char → Prop
  | [], subject => subject = []
  | piece :: pieces, subject =>
    ∃ stretch rest, subject = stretch ++ rest ∧ piece.Takes stretch ∧ Matches pieces rest

section

variable {pieces : List Piece} {c d : Char} {subject : List Char}

theorem matches_literal_cons :
    Matches (.literal d :: pieces) (c :: subject) ↔ c = d ∧ Matches pieces subject := by
  constructor
  · rintro ⟨stretch, rest, hsplit, rfl, hrest⟩
    cases hsplit
    exact ⟨rfl, hrest⟩
  · rintro ⟨rfl, hrest⟩
    exact ⟨[c], subject, rfl, rfl, hrest⟩

theorem matches_anyOne_cons :
    Matches (.anyOne :: pieces) (c :: subject) ↔ Matches pieces subject := by
  constructor
  · rintro ⟨stretch, rest, hsplit, ⟨c', rfl⟩, hrest⟩
    cases hsplit
    exact hrest
  · intro hrest
    exact ⟨[c], subject, rfl, ⟨c, rfl⟩, hrest⟩

/-- A run is empty, or it takes the first character and goes on. -/
theorem matches_anyRun_cons : Matches (.anyRun :: pieces) (c :: subject) ↔
    Matches pieces (c :: subject) ∨ Matches (.anyRun :: pieces) subject := by
  constructor
  · rintro ⟨stretch, rest, hsplit, -, hrest⟩
    cases stretch with
    | nil =>
      rw [List.nil_append] at hsplit
      exact .inl (hsplit ▸ hrest)
    | cons c' stretch =>
      cases hsplit
      exact .inr ⟨stretch, rest, rfl, trivial, hrest⟩
  · rintro (hrest | ⟨stretch, rest, rfl, -, hrest⟩)
    · exact ⟨[], _, rfl, trivial, hrest⟩
    · exact ⟨c :: stretch, rest, rfl, trivial, hrest⟩

theorem matches_cons_nil {piece : Piece} :
    Matches (piece :: pieces) [] ↔ piece = .anyRun ∧ Matches pieces [] := by
  constructor
  · rintro ⟨stretch, rest, hsplit, htakes, hrest⟩
    obtain ⟨rfl, rfl⟩ := List.append_eq_nil_iff.1 hsplit.symm
    cases piece with
    | anyRun => exact ⟨rfl, hrest⟩
    | literal => cases htakes
    | anyOne =>
      obtain ⟨c, hc⟩ := htakes
      cases hc
  · rintro ⟨rfl, hrest⟩
    exact ⟨[], [], rfl, trivial, hrest⟩

end

/-! ## The pieces of a pattern -/

section

variable {escape : Option Char} {pattern subject : List Char}

theorem pieces_unescaped {c : Char} (h : escape ≠ some c) (pattern : List Char) :
    pieces escape (c :: pattern) = Piece.ofChar c :: pieces escape pattern := by
  cases pattern with
  | nil => rw [pieces, pieces, if_neg h]
  | cons d pattern => rw [pieces, if_neg h]

/-- An unescaped character takes what its piece takes. -/
theorem Likes.of_takes {c : Char} (h : escape ≠ some c) {stretch : List Char}
    (htakes : (Piece.ofChar c).Takes stretch) (hrest : Likes escape pattern subject) :
    Likes escape (c :: pattern) (stretch ++ subject) := by
  unfold Piece.ofChar at htakes
  by_cases hone : c = '_'
  · subst hone
    rw [if_pos rfl] at htakes
    obtain ⟨d, rfl⟩ := htakes
    exact .anyOne h hrest
  · rw [if_neg hone] at htakes
    by_cases hrun : c = '%'
    · subst hrun
      exact .anyRun stretch h hrest
    · rw [if_neg hrun] at htakes
      cases htakes
      exact .literal h hone hrun hrest

theorem Likes.matches (h : Likes escape pattern subject) :
    Matches (pieces escape pattern) subject := by
  induction h with
  | nil => rfl
  | escaped he _ ih =>
    rw [pieces, if_pos he]
    exact matches_literal_cons.2 ⟨rfl, ih⟩
  | lone he =>
    rw [pieces, if_pos he]
    exact matches_literal_cons.2 ⟨rfl, rfl⟩
  | anyOne hne _ ih =>
    rw [pieces_unescaped hne]
    exact matches_anyOne_cons.2 ih
  | anyRun run hne _ ih =>
    rw [pieces_unescaped hne]
    exact ⟨run, _, rfl, trivial, ih⟩
  | @literal c _ _ hne hone hrun _ ih =>
    rw [pieces_unescaped hne, Piece.ofChar, if_neg hone, if_neg hrun]
    exact matches_literal_cons.2 ⟨rfl, ih⟩

theorem Likes.of_matches (h : Matches (pieces escape pattern) subject) :
    Likes escape pattern subject := by
  fun_induction pieces escape pattern generalizing subject with
  | case1 =>
    cases h
    exact .nil
  | case2 c he =>
    obtain ⟨stretch, rest, rfl, rfl, rfl⟩ := h
    exact .lone he
  | case3 c hne =>
    obtain ⟨stretch, rest, rfl, htakes, rfl⟩ := h
    exact .of_takes hne htakes .nil
  | case4 c d rest he ih =>
    obtain ⟨stretch, rest, rfl, rfl, hrest⟩ := h
    exact .escaped he (ih hrest)
  | case5 c d rest hne ih =>
    obtain ⟨stretch, rest, rfl, htakes, hrest⟩ := h
    exact .of_takes hne htakes (ih hrest)

/-- The pieces of a pattern match what is like the pattern. -/
theorem matches_pieces_iff :
    Matches (pieces escape pattern) subject ↔ Likes escape pattern subject :=
  ⟨.of_matches, Likes.matches⟩

end

/-! ## The table of ends -/

/-- Each answer says whether an end of the pieces matches the subject. -/
inductive Answers (subject : List Char) : List Piece → List Bool → Prop
  | nil {here : Bool} : (here = true ↔ Matches [] subject) → Answers subject [] [here]
  | cons {here : Bool} {piece : Piece} {pieces : List Piece} {behind : List Bool} :
    (here = true ↔ Matches (piece :: pieces) subject) → Answers subject pieces behind →
      Answers subject (piece :: pieces) (here :: behind)

theorem Answers.head {subject : List Char} {pieces : List Piece} {ends : List Bool}
    (h : Answers subject pieces ends) : ends.headD false = true ↔ Matches pieces subject := by
  cases h with
  | nil hhere => exact hhere
  | cons hhere _ => exact hhere

theorem answers_matchNothing (pieces : List Piece) : Answers [] pieces (matchNothing pieces) := by
  induction pieces with
  | nil => exact .nil (iff_of_true rfl rfl)
  | cons piece pieces ih =>
    refine .cons ?_ ih
    rw [matches_cons_nil, ← ih.head, Bool.and_eq_true, decide_eq_true_iff]

/-- One more character in front of the subject. -/
theorem Answers.advance {subject : List Char} {pieces : List Piece} {ends : List Bool}
    (h : Answers subject pieces ends) (c : Char) :
    Answers (c :: subject) pieces (Like.advance c pieces ends) := by
  induction h with
  | nil => exact .nil (iff_of_false nofun nofun)
  | @cons here piece pieces behind hhere hbehind ih =>
    refine .cons ?_ ih
    cases piece with
    | literal d =>
      simp only [Bool.and_eq_true, decide_eq_true_iff, matches_literal_cons, hbehind.head]
    | anyOne => simp only [matches_anyOne_cons, hbehind.head]
    | anyRun => simp only [Bool.or_eq_true, matches_anyRun_cons, ih.head, hhere]

/-- The table is filled from the end of the subject on. -/
theorem answers_matchEnds (pieces : List Piece) (subject : List Char) :
    Answers subject pieces (matchEnds pieces subject) := by
  induction subject with
  | nil => exact answers_matchNothing pieces
  | cons c subject ih => exact ih.advance c

theorem matches?_iff (pieces : List Piece) (subject : String) :
    matches? pieces subject = true ↔ Matches pieces subject.toList :=
  (answers_matchEnds pieces subject.toList).head

/-! ## The regular expression -/

open MessageSelector.RegularExpression (readFrom read?)

def Piece.expression : Piece → RegularExpression
  | literal c => .literal c
  | anyOne => .any
  | anyRun => .run

/-- The expression of pieces, behind another one. -/
def expressionFrom (before : RegularExpression) (pieces : List Piece) : RegularExpression :=
  pieces.foldl (fun before piece => .seq before piece.expression) before

/-- The whole expression, with its anchors. -/
def expression (pieces : List Piece) : RegularExpression :=
  .seq (.seq (.seq .empty .start) (.group (expressionFrom .empty pieces))) .stop

theorem Piece.source_of_isMeta {c : Char} (h : isMeta c = true) :
    (literal c).source = ['\\', c] :=
  if_pos h

theorem Piece.source_literal {c : Char} (h : isMeta c = false) : (literal c).source = [c] :=
  if_neg (by simp [h])

/-- No piece starts with a star. -/
theorem Piece.head_source (piece : Piece) (rest : List Char) :
    (piece.source ++ rest).head? ≠ some '*' := by
  cases piece with
  | literal c =>
    cases hmeta : isMeta c with
    | true =>
      rw [source_of_isMeta hmeta]
      exact nofun
    | false =>
      rw [source_literal hmeta]
      rintro ⟨⟩
      cases hmeta
  | anyOne => exact nofun
  | anyRun => exact nofun

/-- Where no star follows, the text of a piece is read as its expression. -/
theorem Piece.readFrom_source {outer : List RegularExpression} {before : RegularExpression}
    {rest : List Char} (piece : Piece) (h : rest.head? ≠ some '*') :
    readFrom outer before (piece.source ++ rest) =
      readFrom outer (.seq before piece.expression) rest := by
  cases piece with
  | literal c =>
    cases hmeta : isMeta c with
    | true =>
      rw [source_of_isMeta hmeta]
      exact RegularExpression.readFrom_escaped hmeta
    | false =>
      rw [source_literal hmeta]
      exact RegularExpression.readFrom_literal hmeta
  | anyOne => exact RegularExpression.readFrom_any h
  | anyRun => exact RegularExpression.readFrom_run

theorem readFrom_pieces {outer : List RegularExpression} {before : RegularExpression}
    {pieces : List Piece} {rest : List Char} (h : rest.head? ≠ some '*') :
    readFrom outer before (pieces.flatMap Piece.source ++ rest) =
      readFrom outer (expressionFrom before pieces) rest := by
  induction pieces generalizing before with
  | nil => rfl
  | cons piece pieces ih =>
    have hnext : (pieces.flatMap Piece.source ++ rest).head? ≠ some '*' := by
      cases pieces with
      | nil => exact h
      | cons next pieces =>
        rw [List.flatMap_cons, List.append_assoc]
        exact next.head_source _
    rw [List.flatMap_cons, List.append_assoc, piece.readFrom_source hnext, ih]
    rfl

/-- The text that pieces are translated to is read as their expression. -/
theorem read?_source (pieces : List Piece) :
    read? (source pieces).toList = some (expression pieces) := by
  have htext : (source pieces).toList =
      '^' :: '(' :: '?' :: 's' :: ':' :: (pieces.flatMap Piece.source ++ [')', '$']) := by
    simp [source]
  rw [htext, read?, readFrom, readFrom, readFrom_pieces (by decide)]
  rfl

/-- A piece's expression matches what the piece takes, wherever it stands. -/
theorem Piece.matches_expression {piece : Piece} {before stretch behind : List Char} :
    piece.expression.Matches true before stretch behind ↔ piece.Takes stretch := by
  cases piece with
  | literal c => exact Iff.rfl
  | anyOne => exact ⟨fun ⟨c, h, _⟩ => ⟨c, h⟩, fun ⟨c, h⟩ => ⟨c, h, .inl rfl⟩⟩
  | anyRun => exact iff_of_true (fun _ _ => .inl rfl) trivial

theorem matches_expressionFrom {first : RegularExpression} {pieces : List Piece}
    {before stretch behind : List Char} :
    (expressionFrom first pieces).Matches true before stretch behind ↔
      ∃ left right, stretch = left ++ right ∧ first.Matches true before left (right ++ behind) ∧
        Matches pieces right := by
  induction pieces generalizing first stretch with
  | nil =>
    constructor
    · intro h
      exact ⟨stretch, [], (List.append_nil _).symm, h, rfl⟩
    · rintro ⟨left, _, rfl, h, rfl⟩
      rwa [List.append_nil]
  | cons piece pieces ih =>
    rw [expressionFrom, List.foldl_cons, ← expressionFrom, ih]
    constructor
    · rintro ⟨_, right, rfl, ⟨left, middle, rfl, hfirst, hpiece⟩, hright⟩
      refine ⟨left, middle ++ right, List.append_assoc .., ?_, middle, right, rfl,
        Piece.matches_expression.1 hpiece, hright⟩
      rwa [List.append_assoc]
    · rintro ⟨left, _, rfl, hfirst, middle, right, rfl, htakes, hright⟩
      refine ⟨left ++ middle, right, (List.append_assoc ..).symm, ⟨left, middle, rfl, ?_,
        Piece.matches_expression.2 htakes⟩, hright⟩
      rwa [← List.append_assoc]

/-- The whole expression is found in the subjects that the pieces match. -/
theorem found_expression {pieces : List Piece} {subject : List Char} :
    (expression pieces).Found subject ↔ Matches pieces subject := by
  unfold expression
  rw [RegularExpression.found_anchored, matches_expressionFrom]
  constructor
  · rintro ⟨_, right, rfl, rfl, hright⟩
    exact hright
  · intro h
    exact ⟨[], subject, rfl, rfl, h⟩

theorem compile?_eq (text : String) (escape : Option Char) :
    compile? text (escape.map fun c => String.ofList [c]) = some (pieces escape text.toList) := by
  cases escape with
  | none => rfl
  | some c => simp [compile?, escapeChar?]

/-- **A pattern matches what is like it.** Every pattern with an optional escape character is
compiled. The table of ends says of every subject whether it is like the pattern, and so does the
regular expression that the pattern is translated to, if it is compiled by whatever conforms to the
meaning of regular expressions; it is compiled if it is not too large. -/
theorem compile_matches_iff_likes {fits : String → Prop}
    {engine : String → Option (String → Bool)} (h : RegularExpression.Conforms fits engine)
    (text : String) (escape : Option Char) (subject : String) :
    ∃ compiled, compile? text (escape.map fun c => String.ofList [c]) = some compiled ∧
      (matches? compiled subject = true ↔ Likes escape text.toList subject.toList) ∧
      (∀ isMatch, engine (source compiled) = some isMatch →
        (isMatch subject = true ↔ Likes escape text.toList subject.toList)) ∧
      (fits (source compiled) → ∃ isMatch, engine (source compiled) = some isMatch) := by
  have hread := read?_source (pieces escape text.toList)
  refine ⟨_, compile?_eq text escape, ?_, ?_, h.compiles _ _ hread⟩
  · rw [matches?_iff, matches_pieces_iff]
  · intro isMatch hcompile
    rw [h.isMatch_iff _ _ _ hread hcompile, found_expression, matches_pieces_iff]

/-- An escaped `%` is no run, and `_` stands for a line feed too. -/
theorem compile_matches_iff_likes_escaped :
    let compiled := [Piece.literal '1', .literal '%', .anyOne]
    RegularExpression.Conforms (fun _ => True) RegularExpression.compile ∧
    compile? "1!%_" (some "!") = some compiled ∧ source compiled = "^(?s:1%.)$" ∧
    (∃ isMatch, RegularExpression.compile (source compiled) = some isMatch ∧
      isMatch "1%\n" = true ∧ isMatch "10\n" = false) ∧
    Likes (some '!') "1!%_".toList "1%\n".toList ∧
    ¬ Likes (some '!') "1!%_".toList "10\n".toList := by
  intro compiled
  have hconforms := RegularExpression.conforms_compile
  have hcompile : compile? "1!%_" (some "!") = some compiled := by decide
  have hsome : (some '!').map (fun c => String.ofList [c]) = some "!" := by decide
  obtain ⟨_, heq, hyes, hfound, hfits⟩ :=
    compile_matches_iff_likes hconforms "1!%_" (some '!') "1%\n"
  obtain ⟨_, heq', hno, hfound', -⟩ :=
    compile_matches_iff_likes hconforms "1!%_" (some '!') "10\n"
  rw [hsome, hcompile] at heq heq'
  cases heq
  cases heq'
  have hlikes : Likes (some '!') "1!%_".toList "1%\n".toList := hyes.1 (by decide)
  have hunlike : ¬ Likes (some '!') "1!%_".toList "10\n".toList := by
    rw [← hno]
    decide
  obtain ⟨isMatch, hisMatch⟩ := hfits trivial
  refine ⟨hconforms, hcompile, by decide, ⟨isMatch, hisMatch, ?_, ?_⟩, hlikes, hunlike⟩
  · exact (hfound isMatch hisMatch).2 hlikes
  · rw [← Bool.not_eq_true, hfound' isMatch hisMatch]
    exact hunlike

end MessageSelector.Like
