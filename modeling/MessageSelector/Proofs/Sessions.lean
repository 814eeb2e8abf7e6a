import MessageSelector.Parser
import MessageSelector.Proofs.Construction
import MessageSelector.Proofs.Spelling

/-!
# Sessions

A parser answers any number of calls (`Session`). Each call starts where the one before it has left
the cursor and finds the memo that all calls before it have left, also those that found nothing and
those that ended at the limit of nesting, in the middle of some rule. The invariant is that every
entry of the memo is what plain recognition finds (`Kept`); one call keeps it, so every session does
(`Session.kept`), and every answer of a session is the one of plain recognition
(`Session.recognize_plain`).

The limit is met only where plain recognition, which reads nothing from a memo, would call a rule
below the limit.
-/

namespace MessageSelector

/-! ## The calls of plain recognition -/

/-- Matching symbols from a position on calls a rule at a position. -/
inductive Makes (tokens : List Token) : List Symbol → Nat → Rule → Nat → Prop
  | token {kind : Token.Kind} {symbols : List Symbol} {p q : Nat} {t : Token} {s : Rule} :
    tokens[p]? = some t → t.kind = kind → Makes tokens symbols (p + 1) s q →
      Makes tokens (.token kind :: symbols) p s q
  | first {r : Rule} {symbols : List Symbol} {p : Nat} : Makes tokens (.rule r :: symbols) p r p
  | behind {r s : Rule} {symbols : List Symbol} {p stop q : Nat} {d : Derivation} :
    Recognizes tokens [.rule r] p (some (stop, d)) → Makes tokens symbols stop s q →
      Makes tokens (.rule r :: symbols) p s q

/-- Plain recognition of a rule at a position, called at a depth, calls a rule at a position and at
a depth. There is no limit to the depths. -/
inductive Reaches (tokens : List Token) (depth : Nat) (r : Rule) (p : Nat) :
    Nat → Rule → Nat → Prop
  | self : Reaches tokens depth r p depth r p
  | call {below index q q' : Nat} {s s' : Rule} {a : Alternative} :
    Reaches tokens depth r p below s q → s.Tries tokens q index a →
      Makes tokens a.symbols q s' q' → Reaches tokens depth r p (below + 1) s' q'

theorem Admits.of_makes {tokens : List Token} {call : Rule → Nat → Prop} {symbols : List Symbol}
    {p : Nat} (h : ∀ s q, Makes tokens symbols p s q → call s q) :
    Admits tokens call symbols p := by
  induction symbols generalizing p with
  | nil => trivial
  | cons x symbols ih =>
    cases x with
    | token kind =>
      intro t ht hk
      apply ih
      intro s q hmakes
      exact h s q (.token ht hk hmakes)
    | rule r =>
      refine ⟨h r p .first, ?_⟩
      intro stop d hd
      apply ih
      intro s q hmakes
      exact h s q (.behind hd hmakes)

/-- The calls that plain recognition of a rule makes, counted by what is left of the limit. -/
def Discipline.reached (tokens : List Token) (depth : Nat) (r : Rule) (p : Nat) :
    Discipline tokens where
  call room s q := ∃ below, Reaches tokens depth r p below s q ∧ room = maxRuleDepth + 1 - below
  keep _ _ := True
  admits := by
    rintro room s q index a ⟨below, hreaches, hroom⟩ htries
    apply Admits.of_makes
    intro s' q' hmakes
    exact ⟨below + 1, .call hreaches htries hmakes, by omega⟩
  keeps _ _ := trivial

/-! ## What plain recognition finds -/

/-- What plain recognition finds for a rule at a position: the alternative of a match and the
position behind it, or that there is none. -/
def Finds (tokens : List Token) (r : Rule) (p : Nat) : Option Match → Prop
  | none => Recognizes tokens [.rule r] p none
  | some m => ∃ body,
    Recognizes tokens [.rule r] p (some (m.stop, .rule r m.alternative body .done))

/-- Plain recognition finds one thing. -/
theorem Finds.unique {tokens : List Token} {r : Rule} {p : Nat} {o o' : Option Match}
    (h : Finds tokens r p o) (h' : Finds tokens r p o') : o = o' := by
  rcases o with _ | ⟨alternative, stop⟩
  · cases o' with
    | none => rfl
    | some m' =>
      obtain ⟨body', hbody'⟩ := h'
      cases Recognizes.unique h hbody'
  · obtain ⟨body, hbody⟩ := h
    rcases o' with _ | ⟨alternative', stop'⟩
    · cases hbody.unique h'
    · obtain ⟨body', hbody'⟩ := h'
      cases hbody.unique hbody'
      rfl

/-- The second pass gives the node of the match that plain recognition finds. -/
def Builds (tokens : List Token) (r : Rule) (p : Nat) (m : Match) (n : Node) : Prop :=
  ∃ body, Recognizes tokens [.rule r] p (some (m.stop, .rule r m.alternative body .done)) ∧
    (Derivation.rule r m.alternative body .done).nodes? = some [n]

namespace Builds

variable {tokens : List Token} {r : Rule} {p : Nat} {m m' : Match} {n n' : Node}

theorem finds (h : Builds tokens r p m n) : Finds tokens r p (some m) := by
  obtain ⟨body, hmatch, -⟩ := h
  exact ⟨body, hmatch⟩

theorem unique (h : Builds tokens r p m n) (h' : Builds tokens r p m' n') : n = n' := by
  cases h.finds.unique h'.finds
  obtain ⟨body, hmatch, hnode⟩ := h
  obtain ⟨body', hmatch', hnode'⟩ := h'
  cases hmatch.unique hmatch'
  rw [hnode] at hnode'
  cases hnode'
  rfl

end Builds

/-- An expression is found, if no token follows with which it could go on. -/
theorem Spells.builds {tokens spelled after : List Token} {n : Node} {p : Nat}
    (h : Spells [.rule Rule.root] spelled [n]) (hp : tokens.drop p = spelled ++ after)
    (hnext : ∀ t, after.head? = some t → t.kind ∉ Rule.root.blocks) :
    ∃ m, Builds tokens Rule.root p m n ∧ m.stop = p + spelled.length := by
  obtain ⟨d, hd, rfl, hnodes⟩ := h
  have hadj : Symbol.adjoins Rule.root.blocks [.rule Rule.root] := by decide
  have hmatch := Recognizes.complete hd hadj hp hnext
  cases hd with
  | @rule _ index _ _ body rest ha hbody hrest =>
    cases hrest
    exact ⟨⟨index, p + _⟩, ⟨body, hmatch, hnodes⟩, rfl⟩

namespace Discipline

variable {tokens : List Token} {D : Discipline tokens}

theorem answer_iff {r : Rule} {p : Nat} {o : Option Match} :
    D.Answer r p o ↔ D.keep r p ∧ Finds tokens r p o := by
  cases o <;> rfl

/-- What is known of the entries of a memo is known under every discipline that keeps nothing. -/
theorem Sound.weaken {memo : Memo} (h : D.Sound memo) {D' : Discipline tokens}
    (hkeep : ∀ r q, D'.keep r q) : D'.Sound memo := by
  intro r q o hentry
  exact answer_iff.2 ⟨hkeep r q, (answer_iff.1 (h r q o hentry)).2⟩

end Discipline

namespace Parser

variable {tokens : List Token} {p : Parser}

/-! ## One call -/

/-- What holds of a parser between calls. -/
structure Kept (D : Discipline tokens) (p : Parser) : Prop where
  tokens_eq : p.stream.tokens.toList = tokens
  position_le : p.stream.position ≤ tokens.length
  sound : D.Sound p.memo
  closed : p.memo.Closed tokens

/-- What a call ends with: a match and an entry for it, no match, or a call with no room left. -/
inductive Answers (D : Discipline tokens) (p : Parser) (rule : Rule) :
    Except ParseError Bool × Parser → Prop
  | matched {found : Match} {memo : Memo} : D.Answer rule p.stream.position (some found) →
    memo.entries[(rule, p.stream.position)]? = some (some found) →
      Answers D p rule (.ok true, ⟨p.stream.reset found.stop, memo⟩)
  | unmatched {memo : Memo} : D.Answer rule p.stream.position none →
    Answers D p rule (.ok false, { p with memo })
  | tooDeep {r : Rule} {q : Nat} {memo : Memo} : D.call 0 r q →
    Answers D p rule (.error (.tooDeep q (p.stream.offsetAt q)), { p with memo })

namespace Kept

variable {D : Discipline tokens}

theorem start (D : Discipline tokens) (cursor : Nat) :
    Kept D ⟨(TokenStream.ofList tokens).reset cursor, {}⟩ :=
  ⟨rfl, Nat.min_le_right _ _, D.sound_empty, Memo.closed_empty⟩

/-- Moving the cursor changes nothing that is kept. -/
theorem moved (h : Kept D p) (cursor : Nat) : Kept D ⟨p.stream.reset cursor, p.memo⟩ := by
  refine ⟨h.tokens_eq, ?_, h.sound, h.closed⟩
  rw [← h.tokens_eq]
  exact Nat.min_le_right _ _

theorem weaken (h : Kept D p) {D' : Discipline tokens} (hkeep : ∀ r q, D'.keep r q) :
    Kept D' p :=
  ⟨h.tokens_eq, h.position_le, h.sound.weaken hkeep, h.closed⟩

/-- A match ends inside the tokens or right behind them. -/
theorem stop_le (h : Kept D p) {r : Rule} {found : Match}
    (hfound : D.Answer r p.stream.position (some found)) : found.stop ≤ tokens.length := by
  obtain ⟨-, body, hbody⟩ := hfound
  exact hbody.stop_le h.position_le

theorem reset_position (h : Kept D p) {r : Rule} {found : Match}
    (hfound : D.Answer r p.stream.position (some found)) :
    (p.stream.reset found.stop).position = found.stop := by
  have hle := h.stop_le hfound
  rw [← h.tokens_eq] at hle
  exact Nat.min_eq_left hle

/-- One call keeps what holds between calls, and its answer is that of plain recognition. -/
theorem recognize (h : Kept D p) (rule : Rule) (depth : Nat)
    (hcall : D.call (maxRuleDepth + 1 - depth) rule p.stream.position) :
    Kept D (p.recognize rule depth).2 ∧ Answers D p rule (p.recognize rule depth) := by
  obtain ⟨rfl, hposition, hmemo, hclosed⟩ := h
  obtain ⟨hsound, hout⟩ := Discipline.rule_sound hcall hmemo
  have hextends := (Discipline.rule_extends (maxRuleDepth + 1 - depth) rule p.stream.position p.memo
    hposition (hmemo.weaken fun _ _ => trivial) hclosed).1
  have hentry := @Discipline.entry_of_ok p.stream (maxRuleDepth + 1 - depth) rule
    p.stream.position p.memo
  unfold Parser.recognize
  rcases hres : Recognition.rule p.stream (maxRuleDepth + 1 - depth) rule p.stream.position p.memo
    with ⟨out, memo⟩
  rw [hres] at hsound hout hextends hentry
  cases out with
  | error e =>
    obtain ⟨r, q, hzero, rfl⟩ := hout
    exact ⟨⟨rfl, hposition, hsound, hextends.closed⟩, .tooDeep hzero⟩
  | ok o =>
    cases o with
    | none => exact ⟨⟨rfl, hposition, hsound, hextends.closed⟩, .unmatched hout⟩
    | some found =>
      refine ⟨⟨rfl, ?_, hsound, hextends.closed⟩, .matched hout (hentry rfl)⟩
      exact Nat.min_le_right _ _

/-- From an entry of the memo the second pass builds the node of its match. -/
theorem build_eq (h : Kept D p) {r : Rule} {q : Nat} {found : Match}
    (hentry : p.memo.entries[(r, q)]? = some (some found)) :
    ∃ n, Builds tokens r q found n ∧ p.build r q = .ok n := by
  obtain ⟨rfl, -, hmemo, hclosed⟩ := h
  obtain ⟨body, n, hmatch, hnode, hbuilt⟩ :=
    Construction.rule_eq (hmemo.weaken fun _ _ => trivial) hclosed hentry
  exact ⟨n, ⟨body, hmatch, hnode⟩, hbuilt⟩

end Kept

/-! ## Parsing -/

/-- The tree of what is remembered for the root rule at the first token, whatever tokens it stands
for. -/
def remembered (p : Parser) : Except SyntaxError Node :=
  match p.build Rule.root 0 with
  | .ok tree => .ok tree.number.1
  | .error d => .error (.defect d)

theorem Kept.remembered_eq {D : Discipline tokens} (h : Kept D p) {found : Match}
    (hentry : p.memo.entries[(Rule.root, 0)]? = some (some found)) :
    ∃ n, Builds tokens Rule.root 0 found n ∧ p.remembered = .ok n.number.1 := by
  obtain ⟨n, hbuilds, hbuilt⟩ := h.build_eq hentry
  exact ⟨n, hbuilds, by rw [remembered, hbuilt]⟩

/-- Nothing is built where no match is remembered. -/
theorem remembered_of_unmatched
    (h : ∀ found, p.memo.entries[(Rule.root, 0)]? ≠ some (some found)) :
    p.remembered = .error (.defect (.notRecognized Rule.root 0)) := by
  have hmatched : p.memo.matched Rule.root 0 = .error (.notRecognized Rule.root 0) := by
    unfold Memo.matched
    split
    · next found hentry => exact absurd hentry (h found)
    · rfl
  have hbuild (room : Nat) : Construction.rule p.stream p.memo room Rule.root 0 =
      .error (.notRecognized Rule.root 0) := by
    cases room with
    | zero => rfl
    | succ room =>
      rw [Construction.rule, hmatched]
      rfl
  rw [remembered, build, hbuild]

/-- What parsing from a cursor ends with. -/
inductive Parses (D : Discipline tokens) (p : Parser) : Except SyntaxError Node → Prop
  /-- No tokens from the cursor on are a selector. -/
  | noMatch {position offset : Nat} {found : String} :
    D.Answer Rule.root p.stream.position none →
      Parses D p (.error (.parse (.noMatch position offset found)))
  /-- Tokens are left over behind a selector. -/
  | trailing {found : Match} : D.Answer Rule.root p.stream.position (some found) →
    found.stop < tokens.length →
      Parses D p (.error (.parse (.trailingTokens found.stop (p.stream.offsetAt found.stop)
        (p.stream.foundAt found.stop))))
  /-- All tokens from the cursor on are one selector. -/
  | whole {found : Match} : D.Answer Rule.root p.stream.position (some found) →
    found.stop = tokens.length →
      (p.recognize Rule.root 0).2.memo.entries[(Rule.root, p.stream.position)]? =
        some (some found) → Kept D (p.recognize Rule.root 0).2 →
      Parses D p (p.recognize Rule.root 0).2.remembered
  /-- Some rule was called with no room left. -/
  | tooDeep {r : Rule} {q : Nat} : D.call 0 r q →
    Parses D p (.error (.parse (.tooDeep q (p.stream.offsetAt q))))

/-- Parsing takes the answer of the root rule at the cursor. -/
theorem Kept.parse {D : Discipline tokens} (h : Kept D p) (hne : tokens ≠ [])
    (hcall : D.call (maxRuleDepth + 1) Rule.root p.stream.position) : Parses D p p.parse := by
  have hempty : p.stream.isEmpty = false := by
    rw [← h.tokens_eq] at hne
    simpa [TokenStream.isEmpty] using hne
  obtain ⟨hkept, hanswers⟩ := h.recognize Rule.root 0 hcall
  unfold Parser.parse
  rw [hempty]
  simp only [Bool.false_eq_true, ↓reduceIte]
  rcases hres : p.recognize Rule.root 0 with ⟨out, p'⟩
  rw [hres] at hkept hanswers
  cases hanswers with
  | unmatched hnone => exact .noMatch hnone
  | tooDeep hzero => exact .tooDeep hzero
  | @matched found memo hfound hentry =>
    have hsize : (p.stream.reset found.stop).size = tokens.length := by
      rw [← h.tokens_eq]
      rfl
    simp only [TokenStream.hasMore, h.reset_position hfound, hsize]
    by_cases hmore : found.stop < tokens.length
    · simp only [hmore, decide_true, ↓reduceIte]
      exact .trailing hfound hmore
    · have hend : found.stop = tokens.length := by
        have hle := h.stop_le hfound
        omega
      simp only [hmore, decide_false, Bool.false_eq_true, ↓reduceIte]
      have hwhole := @Parses.whole _ D p found hfound hend
      rw [hres] at hwhole
      exact hwhole hentry hkept

/-! ## Any number of calls -/

/-- A parser that has been started at some cursor and called any number of times. A call starts
where the one before it has left the cursor, which may be anywhere after a call without a match. -/
inductive Session (tokens : List Token) : Parser → Prop
  | start (cursor : Nat) : Session tokens ⟨(TokenStream.ofList tokens).reset cursor, {}⟩
  | call {p : Parser} (rule : Rule) (depth : Nat) : Session tokens p →
    Session tokens (p.recognize rule depth).2
  | unmatched {p p' : Parser} {out : Except ParseError Bool} (rule : Rule) (depth cursor : Nat) :
    Session tokens p → p.recognize rule depth = (out, p') → out ≠ .ok true →
      Session tokens ⟨p'.stream.reset cursor, p'.memo⟩

/-- What holds between calls holds in every session. -/
theorem Session.kept (h : Session tokens p) : Kept (.free tokens) p := by
  induction h with
  | start cursor => exact .start (.free tokens) cursor
  | call rule depth _ ih => exact (ih.recognize rule depth ih.position_le).1
  | unmatched rule depth cursor _ hcall _ ih =>
    have hkept := (ih.recognize rule depth ih.position_le).1
    rw [hcall] at hkept
    exact hkept.moved cursor

/-- **The memo is sound.** In every session each entry of the memo is what plain recognition finds,
and the second pass builds the node of each match. So a call that is answered has the answer of
plain recognition and leaves the cursor behind its match, and the limit is met only where plain
recognition calls a rule below it. -/
theorem Session.recognize_plain (h : Session tokens p) :
    (∀ r q o, p.memo.entries[(r, q)]? = some o → Finds tokens r q o) ∧
    (∀ r q m, p.memo.entries[(r, q)]? = some (some m) →
      ∃ n, Builds tokens r q m n ∧ p.build r q = .ok n) ∧
    ∀ rule depth,
      (∀ b p', p.recognize rule depth = (.ok b, p') →
        (b = true ↔ ∃ d, Recognizes tokens [.rule rule] p.stream.position
          (some (p'.stream.position, d))) ∧
        (b = false ↔ Recognizes tokens [.rule rule] p.stream.position none)) ∧
      (∀ e p', p.recognize rule depth = (.error e, p') →
        ∃ below r q, Reaches tokens depth rule p.stream.position below r q ∧
          maxRuleDepth < below ∧ e = .tooDeep q (p.stream.offsetAt q)) := by
  have hkept := h.kept
  refine ⟨?_, fun r q m hentry => hkept.build_eq hentry, ?_⟩
  · intro r q o hentry
    exact (Discipline.answer_iff.1 (hkept.sound r q o hentry)).2
  intro rule depth
  have hreached : Kept (.reached tokens depth rule p.stream.position) p :=
    hkept.weaken fun _ _ => trivial
  obtain ⟨-, hanswers⟩ := hreached.recognize rule depth ⟨depth, .self, rfl⟩
  constructor
  · intro b p' heq
    rw [heq] at hanswers
    cases hanswers with
    | matched hfound _ =>
      have hstop := hreached.reset_position hfound
      obtain ⟨-, body, hbody⟩ := hfound
      refine ⟨iff_of_true rfl ⟨_, by rw [hstop]; exact hbody⟩, iff_of_false nofun ?_⟩
      intro hnone
      cases hnone.unique hbody
    | unmatched hnone =>
      refine ⟨iff_of_false nofun ?_, iff_of_true rfl hnone.2⟩
      rintro ⟨d, hd⟩
      cases hd.unique hnone.2
  · intro e p' heq
    rw [heq] at hanswers
    cases hanswers with
    | tooDeep hcall =>
      obtain ⟨below, hreaches, hroom⟩ := hcall
      exact ⟨below, _, _, hreaches, by omega, rfl⟩

/-- After a call that met the limit at once, the operand behind `NOT` is recognized. -/
theorem Session.recognize_plain_operand :
    let tokens : List Token := [⟨.not, "NOT", 0⟩, ⟨.ident, "x", 4⟩]
    let p : Parser := ⟨(TokenStream.ofList tokens).reset 1, {}⟩
    Session tokens p ∧ p.stream.position = 1 ∧
      (∀ r q o, p.memo.entries[(r, q)]? = some o → Finds tokens r q o) ∧
      ∀ b p', p.recognize .expr 0 = (.ok b, p') → b = true ∧ p'.stream.position = 2 := by
  intro tokens p
  let x : Token := ⟨.ident, "x", 4⟩
  have hsession : Session tokens p := .unmatched .expr 513 1 (.start 0) rfl nofun
  obtain ⟨hfinds, -, hcalls⟩ := hsession.recognize_plain
  refine ⟨hsession, rfl, hfinds, ?_⟩
  intro b p' heq
  have hspells : Spells [.rule .simple] [x] [.leaf 0 x] := .literal rfl
  have hdrop : tokens.drop 1 = [x] ++ [] := rfl
  obtain ⟨m, ⟨body, hmatch, -⟩, hm⟩ := hspells.expr.builds hdrop (by simp)
  obtain ⟨htrue, hfalse⟩ := (hcalls .expr 0).1 b p' heq
  cases b with
  | false => cases (hfalse.1 rfl).unique hmatch
  | true =>
    obtain ⟨d, hd⟩ := htrue.1 rfl
    have hstop := congrArg (Option.map Prod.fst) (hd.unique hmatch)
    exact ⟨rfl, (Option.some.inj hstop).trans hm⟩

end Parser

end MessageSelector
