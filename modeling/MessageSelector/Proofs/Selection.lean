import MessageSelector.Proofs.Accepted
import MessageSelector.Proofs.Agreement
import MessageSelector.Proofs.Types
import MessageSelector.Selector

/-!
# Selectors

Every selector that is made of a text (`Made`) can be matched against every message and compiled
(`withHints_safe`), and its program is read as a term that has the value of the selector for every
message (`compile_refines`).
-/

namespace MessageSelector

namespace Selector

/-- The parts of a selector are what the passes find. -/
structure Made (text : String) (hints : Hints) (s : Selector) : Prop where
  parse_eq : parse text = .ok s.tree
  check_eq : s.tree.check hints = .ok s.types
  accept_eq : s.tree.accept s.types = .ok s.type
  evaluator_eq : Evaluator.ofTree s.tree = .ok s.evaluator

theorem made_of_withHints {text : String} {hints : Hints} {s : Selector}
    (h : withHints text hints = .ok s) : Made text hints s := by
  simp only [withHints, bind_eq_ok] at h
  obtain ⟨tree, htree, types, htypes, type, htype, evaluator, hevaluator, hs⟩ := h
  cases hs
  have ok_of_mapError {ε ε' α : Type} {f : ε → ε'} {x : Except ε α} {a : α}
      (h : x.mapError f = .ok a) : x = .ok a := by
    cases x <;> cases h
    rfl
  exact ⟨ok_of_mapError htree, ok_of_mapError htypes, ok_of_mapError htype,
    ok_of_mapError hevaluator⟩

namespace Made

variable {text : String} {hints : Hints} {s : Selector} (h : Made text hints s)

include h

theorem accepted : s.tree.Accepted :=
  parse_accepted h.parse_eq

/-- The patterns of a selector are in the table of its evaluator. -/
theorem patterns_eq : ∀ m ∈ s.tree.preorder, ∀ pieces, m.pieces? = some pieces →
    s.evaluator.patterns[m.id]? = some pieces :=
  (Evaluator.collects_of_collect h.evaluator_eq).entry h.accepted.nodup

/-- The selector and its term have the same value for every message. -/
theorem value_agrees (source : PropertySource) :
    ∃ v, s.value source = .ok v ∧ s.tree.term.value source = .ok v :=
  Evaluator.value_agrees h.accepted.formed (Node.get_ne_invalid h.check_eq h.accept_eq)
    h.patterns_eq source

/-- The program of a selector is read as its term, with the numbers that its numerals are read
as. -/
theorem read_program {f : Float → Float} (hread : s.tree.ReadBy f) :
    ∃ program, s.compile = .ok program ∧ Term.read program = .ok (s.tree.termBy f) := by
  obtain ⟨program, hprogram, hwrites⟩ := h.accepted.formed.compile_writes_by
  have hdepth : (s.tree.termBy f).depth ≤ maxTermDepth := by
    rw [Node.depth_termBy]
    exact h.accepted.depth_le
  have hnone : ∀ c ∈ ([] : List Char), Text.isBlank c := List.forall_mem_nil _
  have hwritten := hwrites f hread maxTermDepth hdepth
  exact ⟨program, hprogram,
    hwritten.read hnone hnone (by rw [List.append_nil, List.nil_append])⟩

end Made

/-- A selector is made where the passes accept the tree. -/
theorem withHints_of_accept {text : String} {hints : Hints} {tree : Node} {types : TypeTable}
    {type : ExprType} (hparse : parse text = .ok tree) (hcheck : tree.check hints = .ok types)
    (haccept : tree.accept types = .ok type) :
    ∃ evaluator, withHints text hints = .ok ⟨text, tree, types, evaluator, type⟩ := by
  obtain ⟨evaluator, hevaluator⟩ := Evaluator.collect_ok (parse_accepted hparse).formed {}
  have hofTree : Evaluator.ofTree tree = .ok evaluator := hevaluator
  refine ⟨evaluator, ?_⟩
  rw [withHints, hparse]
  simp only [bind, Except.bind, Except.mapError, hcheck, haccept, hofTree]
  rfl

/-- The tree of a selector has the type of the selector, which is that of a condition. -/
theorem Made.hasType {text : String} {hints : Hints} {s : Selector} (h : Made text hints s) :
    Typing.HasType hints s.tree s.type ∧ (s.type = .bool ∨ s.type = .any) := by
  have hroot := Node.typeOf_of_check h.check_eq h.accepted.nodup _ (Node.mem_preorder_self _)
  have haccept := h.accept_eq
  rw [Node.accept] at haccept
  split at haccept
  · next hbool =>
    have htype : .bool = s.type := Except.ok.inj haccept
    rw [← htype]
    exact ⟨⟨hbool ▸ hroot, by decide⟩, .inl rfl⟩
  · next hany =>
    have htype : .any = s.type := Except.ok.inj haccept
    rw [← htype]
    exact ⟨⟨hany ▸ hroot, by decide⟩, .inr rfl⟩
  · cases haccept

/-- A text is accepted where its tree has the type of a condition. -/
theorem withHints_of_hasType {text : String} {hints : Hints} {tree : Node} {type : ExprType}
    (hparse : parse text = .ok tree) (h : Typing.HasType hints tree type)
    (hcondition : type = .bool ∨ type = .any) :
    ∃ s, withHints text hints = .ok s ∧ s.tree = tree := by
  have haccepted := parse_accepted hparse
  obtain ⟨types, hcheck⟩ := haccepted.formed.check_ok hints
  have hroot := Node.typeOf_of_check hcheck haccepted.nodup _ (Node.mem_preorder_self _)
  rw [h.typeOf_eq] at hroot
  have haccept : tree.accept types = .ok type := by
    rw [Node.accept, ← Except.ok.inj hroot]
    rcases hcondition with rfl | rfl <;> rfl
  obtain ⟨evaluator, hs⟩ := withHints_of_accept hparse hcheck haccept
  exact ⟨_, hs, rfl⟩

/-- What making a selector of a text ends with, given what parsing it ends with. -/
theorem withHints_total (text : String) (hints : Hints) :
    (∃ s, withHints text hints = .ok s) ∨ (∃ e, withHints text hints = .error (.lex e)) ∨
      (∃ e, withHints text hints = .error (.parse e)) ∨
      ∃ e, withHints text hints = .error (.type e) := by
  have hreading := parse_reading text
  cases hparse : parse text with
  | error e =>
    rw [hparse] at hreading
    rw [withHints, hparse]
    cases hreading with
    | lex e => exact .inr (.inl ⟨e, rfl⟩)
    | parse e => exact .inr (.inr (.inl ⟨e, rfl⟩))
  | ok tree =>
    obtain ⟨types, hcheck⟩ := (parse_accepted hparse).formed.check_ok hints
    cases haccept : tree.accept types with
    | error e =>
      refine .inr (.inr (.inr ⟨e, ?_⟩))
      rw [withHints, hparse]
      simp only [bind, Except.bind, Except.mapError, hcheck, haccept]
    | ok type =>
      obtain ⟨evaluator, hs⟩ := withHints_of_accept hparse hcheck haccept
      exact .inl ⟨_, hs⟩

/-! ## Safety -/

/-- **No text leads to a defect.** Making a selector of a text ends with a selector or with an
error of the text, and a selector has an answer for every message and a program. -/
theorem withHints_safe (text : String) (hints : Hints) :
    ((∃ s, withHints text hints = .ok s) ∨ (∃ e, withHints text hints = .error (.lex e)) ∨
      (∃ e, withHints text hints = .error (.parse e)) ∨
      ∃ e, withHints text hints = .error (.type e)) ∧
    ∀ s, withHints text hints = .ok s →
      (∀ source, ∃ b, s.accepts source = .ok b) ∧ ∃ program, s.compile = .ok program := by
  refine ⟨withHints_total text hints, fun s hs => ⟨fun source => ?_, ?_⟩⟩
  · obtain ⟨v, hv, -⟩ := (made_of_withHints hs).value_agrees source
    have hvalue : s.evaluator.value s.types source s.tree = .ok v := hv
    exact ⟨v.isTrue, by rw [accepts, Evaluator.evaluate, hvalue]; rfl⟩
  · obtain ⟨program, hprogram, -⟩ := (made_of_withHints hs).accepted.formed.compile_writes
    exact ⟨program, hprogram⟩

/-- A null test. -/
theorem withHints_safe_null :
    ∃ s, withHints "x IS NULL" Hints.empty = .ok s ∧
      (∀ source, ∃ b, s.accepts source = .ok b) ∧ ∃ program, s.compile = .ok program := by
  let x : Token := ⟨.ident, "x", 0⟩
  let test : Token := ⟨.isNull, "IS NULL", 2⟩
  let tree : Node := .postfixOp 0 test (.leaf 1 x)
  have hspells : Spells [.rule .simple] [x, test] [.postfixOp 0 test (.leaf 0 x)] :=
    .postfixOp rfl rfl
  have htokens : tokenize "x IS NULL" = .ok [x, test] := by decide +kernel
  have hparse : parse "x IS NULL" = .ok tree := by
    rw [parse, htokens]
    exact Parser.parse_of_spells (by decide) hspells.expr
  obtain ⟨types, hvisit⟩ : ∃ types, Typing.visit Hints.empty {} tree = .ok (.bool, types) :=
    ⟨_, rfl⟩
  have hcheck : tree.check Hints.empty = .ok types := by rw [Node.check, hvisit]; rfl
  have haccept : tree.accept types = .ok .bool := by rw [Node.accept, (Typing.visit_eq hvisit).1]
  obtain ⟨evaluator, hs⟩ := withHints_of_accept hparse hcheck haccept
  exact ⟨_, hs, (withHints_safe _ _).2 _ hs⟩

/-! ## Programs -/

/-- **A program means what its selector means.** If the numbers of the selector are read as they
are written, its program is read as a term within the limit of nesting, and for every message the
term has the value of the selector. -/
theorem compile_refines (text : String) (hints : Hints) (s : Selector)
    (hs : withHints text hints = .ok s) (hread : s.tree.Readable) :
    ∃ program t, s.compile = .ok program ∧ Term.read program = .ok t ∧ t.depth ≤ maxTermDepth ∧
      ∀ source, ∃ v, s.value source = .ok v ∧ t.value source = .ok v ∧
        s.accepts source = .ok v.isTrue ∧ (t.value source).map Value.isTrue = .ok v.isTrue := by
  have hmade := made_of_withHints hs
  obtain ⟨program, hprogram, hwrites⟩ := hmade.accepted.formed.compile_writes
  have hwritten := hwrites hread maxTermDepth hmade.accepted.depth_le
  refine ⟨program, s.tree.term, hprogram, ?_, hmade.accepted.depth_le, fun source => ?_⟩
  · have hnone : ∀ c ∈ ([] : List Char), Text.isBlank c := List.forall_mem_nil _
    exact hwritten.read hnone hnone (by rw [List.append_nil, List.nil_append])
  · obtain ⟨v, hv, hterm⟩ := hmade.value_agrees source
    have hvalue : s.evaluator.value s.types source s.tree = .ok v := hv
    exact ⟨v, hv, hterm, by rw [accepts, Evaluator.evaluate, hvalue]; rfl, by rw [hterm]; rfl⟩

/-- A comparison with a number that is no integer. -/
theorem compile_refines_less :
    ∃ s program t, withHints "x < 1.5" Hints.empty = .ok s ∧ s.tree.Readable ∧
      s.compile = .ok program ∧ Term.read program = .ok t ∧
      ∀ source, ∃ v, s.value source = .ok v ∧ t.value source = .ok v := by
  let x : Token := ⟨.ident, "x", 0⟩
  let less : Token := ⟨.less, "<", 2⟩
  let bound : Token := ⟨.float, "1.5", 4⟩
  let tree : Node := .binary 0 less (.leaf 1 x) (.leaf 2 bound)
  have hspells : Spells [.rule .expr] [x, less, bound]
      [.binary 0 less (.leaf 0 x) (.leaf 0 bound)] :=
    @Spells.operator [x] [bound] less _ _ (.compare .less) rfl rfl (.literal rfl) (.literal rfl)
  have htokens : tokenize "x < 1.5" = .ok [x, less, bound] := by decide +kernel
  have hparse : parse "x < 1.5" = .ok tree := by
    rw [parse, htokens]
    exact Parser.parse_of_spells (by decide) hspells
  obtain ⟨types, hvisit⟩ : ∃ types, Typing.visit Hints.empty {} tree = .ok (.bool, types) :=
    ⟨_, rfl⟩
  have hcheck : tree.check Hints.empty = .ok types := by rw [Node.check, hvisit]; rfl
  have haccept : tree.accept types = .ok .bool := by rw [Node.accept, (Typing.visit_eq hvisit).1]
  obtain ⟨evaluator, hs⟩ := withHints_of_accept hparse hcheck haccept
  have hfloat : bound.payload? = some (.float 1.5) := by
    have hvalue : Token.float? "1.5".toList = some 1.5 := by decide +kernel
    rw [Token.payload?]
    exact congrArg (Option.map Token.Payload.float) hvalue
  have hread : tree.Readable := by
    intro id t ht y hy
    simp only [tree, Node.preorder, List.mem_cons, List.cons_append, List.nil_append, reduceCtorEq,
      Node.leaf.injEq, List.not_mem_nil, or_false, false_or] at ht
    rcases ht with ⟨-, rfl⟩ | ⟨-, rfl⟩
    · cases hy
    · cases hfloat.symm.trans hy
      decide +kernel
  obtain ⟨program, t, hcompile, ht, -, hvalue⟩ := compile_refines _ _ _ hs hread
  refine ⟨_, program, t, hs, hread, hcompile, ht, fun source => ?_⟩
  obtain ⟨v, hv, hterm, -⟩ := hvalue source
  exact ⟨v, hv, hterm⟩

end Selector

end MessageSelector
