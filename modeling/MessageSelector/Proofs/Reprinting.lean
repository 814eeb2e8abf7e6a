import MessageSelector.Proofs.FloatReading
import MessageSelector.Proofs.Overflow
import MessageSelector.Proofs.Selection

/-!
# Printing a program that was read

A program is read as the term of its tree, since every number of the tree is read back. Printed, the
term gives the program again (`Reprints`, `compile_reprint`), except for hexadecimal literals above
the signed range (`Token.Wide`): they are compiled to the digits of the unsigned word, read as
floating point numbers, and printed as such, with a point that their digits do not have (`points`).
-/

namespace MessageSelector

open Decimal (natural integer FloatFormat)
open Decimal.FloatModel

/-! ## Words above the signed range -/

/-- A hexadecimal literal above the signed range. -/
def Token.Wide (t : Token) : Prop :=
  ∃ n, t.payload? = some (.hex n) ∧ Int64.maxValue.toInt < n.toNat

/-- A tree with a hexadecimal literal above the signed range. -/
def Node.HasWide (n : Node) : Prop :=
  ∃ id t, leaf id t ∈ n.preorder ∧ t.Wide

/-! ## Points -/

namespace Term

/-- How many points are in a text. -/
def points (text : String) : ℕ :=
  text.toList.count '.'

theorem points_append (a b : String) : points (a ++ b) = points a + points b := by
  rw [points, String.toList_append, List.count_append]
  rfl

theorem points_intercalate (texts : List String) :
    points (String.intercalate ", " texts) = (texts.map points).sum := by
  induction texts with
  | nil => rfl
  | cons text texts ih =>
    cases texts with
    | nil =>
      rw [String.intercalate_singleton, List.map_singleton, List.sum_singleton]
    | cons text' texts =>
      have hseparator : points ", " = 0 := by decide
      rw [String.intercalate_cons_cons, points_append, points_append, ih, hseparator, Nat.add_zero]
      rfl

theorem points_tupleText (texts : List String) :
    points (tupleText texts) = (texts.map points).sum := by
  have hopen : points "\x7b" = 0 := by decide
  have hclose : points "\x7d" = 0 := by decide
  rw [tupleText, points_append, points_append, points_intercalate, hopen, hclose, Nat.zero_add,
    Nat.add_zero]

/-- The digits of an integer have no point. -/
theorem points_integerText (n : ℤ) : points (integerText n) = 0 := by
  rw [points, integerText, String.toList_ofList, List.count_eq_zero]
  intro hpoint
  exact (signed_integer n).not_isPointOrMark '.' hpoint (.inl rfl)

/-- The numeral of a finite number has a point. -/
theorem points_write_pos {x : Float} (hx : x.isFinite) :
    0 < points (FloatFormat.program.write x) := by
  have hpoint : '.' ∈ FloatFormat.program.magnitude x := by
    have hpointed := Reader.isPointed_magnitude x
    generalize FloatFormat.program.magnitude x = text at hpointed
    cases hpointed with
    | plain | exponent => simp
  rw [points, List.count_pos_iff, toList_write hx]
  split
  · exact List.mem_cons_of_mem _ hpoint
  · exact hpoint

/-! ## Printed again -/

/-- A text and the term that is read from it. Unless there is a wide literal in the term, it is
printed as the text; if there is, its print has more points. -/
structure Reprints (wide : Prop) (text : String) (t : Term) : Prop where
  same : ¬ wide → t.print = text
  more : wide → points text < points t.print

structure ReprintsAll (wide : Prop) (texts : List String) (ts : List Term) : Prop where
  same : ¬ wide → printAll ts = texts
  more : wide → (texts.map points).sum < ((printAll ts).map points).sum

variable {wide wide' : Prop} {text : String} {texts : List String} {t : Term} {ts : List Term}

theorem Reprints.of_print (hnone : ¬ wide) (h : t.print = text) : Reprints wide text t :=
  ⟨fun _ => h, fun hwide => absurd hwide hnone⟩

theorem Reprints.congr (h : Reprints wide text t) (hwide : wide' ↔ wide) :
    Reprints wide' text t := by
  rwa [hwide]

theorem Reprints.points_le (h : Reprints wide text t) : points text ≤ points t.print := by
  by_cases hwide : wide
  · exact (h.more hwide).le
  · rw [h.same hwide]

theorem Reprints.eq_iff (h : Reprints wide text t) : t.print = text ↔ ¬ wide := by
  refine ⟨fun heq hwide => ?_, h.same⟩
  have hmore := h.more hwide
  rw [heq] at hmore
  exact Nat.lt_irrefl _ hmore

theorem ReprintsAll.points_le (h : ReprintsAll wide texts ts) :
    (texts.map points).sum ≤ ((printAll ts).map points).sum := by
  by_cases hwide : wide
  · exact (h.more hwide).le
  · rw [h.same hwide]

theorem ReprintsAll.nil : ReprintsAll False [] [] :=
  ⟨fun _ => rfl, False.elim⟩

theorem ReprintsAll.cons (h : Reprints wide text t) (hs : ReprintsAll wide' texts ts) :
    ReprintsAll (wide ∨ wide') (text :: texts) (t :: ts) := by
  have hle := h.points_le
  have hle' := hs.points_le
  refine ⟨fun hnone => ?_, fun hsome => ?_⟩
  · rw [not_or] at hnone
    rw [printAll, h.same hnone.1, hs.same hnone.2]
  · rw [printAll, List.map_cons, List.map_cons, List.sum_cons, List.sum_cons]
    rcases hsome with hwide | hwide
    · have hlt := h.more hwide
      omega
    · have hlt := hs.more hwide
      omega

theorem ReprintsAll.tupleText (h : ReprintsAll wide texts ts) :
    Reprints wide (tupleText texts) (.tuple ts) := by
  refine ⟨fun hnone => ?_, fun hwide => ?_⟩
  · rw [print, h.same hnone]
  · rw [print, points_tupleText, points_tupleText]
    exact h.more hwide

theorem ReprintsAll.tagged (tag : String) (h : ReprintsAll wide texts ts) :
    Reprints wide (Compilation.tagged tag texts) (.tuple (.atom tag :: ts)) := by
  have hatom : Reprints False (atomText tag) (.atom tag) := .of_print id rfl
  have hall := (ReprintsAll.cons hatom h).tupleText
  rwa [false_or] at hall

end Term

namespace Token

theorem kind_of_hex {t : Token} {n : UInt64} (h : t.payload? = some (.hex n)) : t.kind = .hex := by
  rw [payload?] at h
  cases hk : t.kind <;> rw [hk] at h <;> simp at h ⊢

theorem not_wide {t : Token} (h : t.kind ≠ .hex) : ¬ t.Wide :=
  fun ⟨_, hpayload, _⟩ => h (kind_of_hex hpayload)

end Token

namespace Node

theorem hasWide_leaf {id : Nat} {t : Token} : (leaf id t).HasWide ↔ t.Wide := by
  simp [HasWide, preorder]

theorem hasWide_iff {n : Node} :
    n.HasWide ↔ (∃ id t, n = leaf id t ∧ t.Wide) ∨ ∃ c ∈ n.children, c.HasWide := by
  constructor
  · rintro ⟨id, t, hmem, hwide⟩
    rcases mem_preorder.1 hmem with heq | ⟨c, hc, hmem⟩
    · exact .inl ⟨id, t, heq.symm, hwide⟩
    · exact .inr ⟨c, hc, id, t, hmem, hwide⟩
  · rintro (⟨id, t, rfl, hwide⟩ | ⟨c, hc, id, t, hmem, hwide⟩)
    · exact ⟨id, t, mem_preorder_self _, hwide⟩
    · exact ⟨id, t, mem_preorder_of_child hc hmem, hwide⟩

end Node

namespace Compilation

open Term (Reprints ReprintsAll)

theorem leaf_reprints {t : Token} (h : t.Literal) :
    ∃ text, leaf t = .ok text ∧ Reprints t.Wide text t.term := by
  cases h with
  | trueWord hk =>
    refine ⟨_, by rw [leaf, hk], .of_print (Token.not_wide (hk ▸ by decide)) ?_⟩
    rw [Token.term, hk, Term.print]
  | falseWord hk =>
    refine ⟨_, by rw [leaf, hk], .of_print (Token.not_wide (hk ▸ by decide)) ?_⟩
    rw [Token.term, hk, Term.print]
  | ident hk =>
    refine ⟨_, by rw [leaf, hk], .of_print (Token.not_wide (hk ▸ by decide)) ?_⟩
    simp only [Token.term, hk, Term.print, Term.printAll, tagged]
  | string s hk hs =>
    refine ⟨_, by rw [leaf, hk, hs], .of_print (Token.not_wide (hk ▸ by decide)) ?_⟩
    rw [Token.term, hk, hs, Term.print]
  | int n hk hn =>
    refine ⟨_, by rw [leaf, hk, hn], .of_print (Token.not_wide (hk ▸ by decide)) ?_⟩
    rw [Token.term, hk, hn, Term.print]
  | float x hk hx hfinite =>
    refine ⟨FloatFormat.program.write x, ?_, .of_print (Token.not_wide (hk ▸ by decide)) ?_⟩
    · simp [leaf, hk, hx, Term.floatText?, hfinite]
    · rw [Token.term, hk, hx, Term.print]
  | hex n hk hn =>
    refine ⟨Term.integerText n.toNat, by rw [leaf, hk, hn], ?_⟩
    have hwide : t.Wide ↔ Int64.maxValue.toInt < n.toNat := by
      constructor
      · rintro ⟨m, hm, hlt⟩
        rw [hn] at hm
        cases hm
        exact hlt
      · exact fun hlt => ⟨n, hn, hlt⟩
    refine Reprints.congr ?_ hwide
    rw [Token.term, hk, hn]
    show Reprints _ _ (Term.Reader.ofNumber (Number.ofUInt64 n))
    unfold Number.ofUInt64
    rcases Decimal.fitInt64_word n with ⟨k, hfit, hvalue, hle⟩ | ⟨hnone, hlt⟩
    · refine .of_print hle ?_
      rw [hfit, Option.elim_some, Term.Reader.ofNumber, Term.print, hvalue]
    · rw [hnone, Option.elim_none, Term.Reader.ofNumber]
      refine ⟨absurd hlt, fun _ => ?_⟩
      rw [Term.print, Term.points_integerText]
      exact Term.points_write_pos (isFinite_ofNat n)

theorem pattern_reprints {ok : Token → Prop} {p : Node} (h : p.PatternFormed ok) :
    ∃ text, pattern p = .ok text ∧ Reprints p.HasWide text p.term := by
  have hstring {i : Nat} {t : Token} (hk : t.kind = .string) :
      stringLeaf (.leaf i t) = .ok (Term.binaryText (Text.unquote t.text)) ∧
        t.term = .binary (Text.unquote t.text) ∧ ¬ t.Wide := by
    refine ⟨?_, ?_, Token.not_wide (hk ▸ by decide)⟩
    · rw [stringLeaf, Node.string?, Token.string?_of_kind hk]
    · rw [Token.term, Token.payload?, hk]
  cases h with
  | @pattern id i text hk _ =>
    obtain ⟨htext, hterm, hnone⟩ := hstring (i := i) hk
    refine ⟨_, by rw [pattern, htext]; rfl, .of_print ?_ ?_⟩
    · rw [Node.hasWide_iff]
      simpa [Node.children, Node.hasWide_leaf] using hnone
    · simp only [Node.term, hterm, Term.print, Term.printAll]
  | @escaped id i j text escape hk _ hk' _ =>
    obtain ⟨htext, hterm, hnone⟩ := hstring (i := i) hk
    obtain ⟨hescape, hterm', hnone'⟩ := hstring (i := j) hk'
    refine ⟨_, by rw [pattern, htext, hescape]; rfl, .of_print ?_ ?_⟩
    · rw [Node.hasWide_iff]
      simpa [Node.children, Node.hasWide_leaf] using ⟨hnone, hnone'⟩
    · simp only [Node.term, hterm, hterm', Term.print, Term.printAll]

theorem list_reprints (i : Nat) (items : List String) :
    ∃ text, list (.list i items) = .ok text ∧
      Reprints (Node.list i items).HasWide text (Node.list i items).term := by
  refine ⟨_, rfl, .of_print ?_ ?_⟩
  · rw [Node.hasWide_iff]
    simp [Node.children]
  · have hall : Term.printAll (items.map .binary) = items.map Term.binaryText := by
      induction items with
      | nil => rfl
      | cons s items ih => rw [List.map_cons, Term.printAll, ih, Term.print, List.map_cons]
    rw [Node.term, Term.print, hall]

end Compilation

namespace Node

open Term (Reprints ReprintsAll)

/-- **A compiled tree is printed again**, unless it has a literal above the signed range. -/
theorem Formed.reprints {n : Node} (h : n.Formed Token.Valued) :
    ∃ text, n.compile = .ok text ∧ Reprints n.HasWide text n.term := by
  induction h with
  | @leaf id t hk ht =>
    obtain ⟨text, htext, hreprints⟩ := Compilation.leaf_reprints (ht.literal hk)
    exact ⟨text, htext, hreprints.congr hasWide_leaf⟩
  | @binary id op o left right ho htakes _ _ ihl ihr =>
    obtain ⟨l, hl, hleft⟩ := ihl
    obtain ⟨r, hr, hright⟩ := ihr
    refine ⟨_, compile_binary ho htakes hl hr, ?_⟩
    have htagged := (ReprintsAll.cons hleft (.cons hright .nil)).tagged o.tag
    rw [term, ho]
    refine htagged.congr ?_
    rw [hasWide_iff]
    simp [children]
  | @like id i op x negated p ho hk hx hp =>
    obtain ⟨l, hl, hleft⟩ := Compilation.leaf_reprints (.ident hk)
    obtain ⟨r, hr, hright⟩ := Compilation.pattern_reprints hp
    refine ⟨_, compile_like ho hl hr, ?_⟩
    have htagged := (ReprintsAll.cons hleft (.cons hright .nil)).tagged
      (BinaryOperator.like negated).tag
    rw [term, ho]
    refine htagged.congr ?_
    rw [hasWide_iff]
    simp [children, hasWide_leaf]
  | @isIn id i j op x negated items ho hk hx hne =>
    obtain ⟨l, hl, hleft⟩ := Compilation.leaf_reprints (.ident hk)
    obtain ⟨r, hr, hright⟩ := Compilation.list_reprints j items
    refine ⟨_, compile_isIn ho hl hr, ?_⟩
    have htagged := (ReprintsAll.cons hleft (.cons hright .nil)).tagged
      (BinaryOperator.isIn negated).tag
    rw [term, ho]
    refine htagged.congr ?_
    rw [hasWide_iff]
    simp [children, hasWide_leaf]
  | @ternary id op negated first second third ho _ _ _ ih₁ ih₂ ih₃ =>
    obtain ⟨v, hv, hfirst⟩ := ih₁
    obtain ⟨low, hlow, hsecond⟩ := ih₂
    obtain ⟨high, hhigh, hthird⟩ := ih₃
    refine ⟨_, compile_ternary ho hv hlow hhigh, ?_⟩
    have hrange := (ReprintsAll.cons hsecond (.cons hthird .nil)).tagged "range"
    have htagged := (ReprintsAll.cons hfirst (.cons hrange .nil)).tagged
      (if negated then "not_between" else "between")
    have hwide : (Node.ternary id op first second third).HasWide ↔
        first.HasWide ∨ (second.HasWide ∨ third.HasWide ∨ False) ∨ False := by
      rw [hasWide_iff]
      simp [children]
    have hprints := htagged.congr hwide
    cases negated <;> simpa [term, ho] using hprints
  | @prefixOp id op o operand ho _ ih =>
    obtain ⟨v, hv, hoperand⟩ := ih
    refine ⟨_, compile_prefixOp ho hv, ?_⟩
    have htagged := (ReprintsAll.cons hoperand .nil).tagged o.tag
    rw [term, ho]
    refine htagged.congr ?_
    rw [hasWide_iff]
    simp [children]
  | @postfixOp id i op x negated ho hk hx =>
    obtain ⟨v, hv, hoperand⟩ := Compilation.leaf_reprints (.ident hk)
    refine ⟨_, compile_postfixOp ho hv, ?_⟩
    have htagged := (ReprintsAll.cons hoperand .nil).tagged
      (if negated then "not_null" else "is_null")
    have hwide : (Node.postfixOp id op (.leaf i x)).HasWide ↔ x.Wide ∨ False := by
      rw [hasWide_iff]
      simp [children, hasWide_leaf]
    have hprints := htagged.congr hwide
    cases negated <;> simpa [term, ho] using hprints

/-- Every number of a tree is read back. -/
theorem readBy_self (n : Node) : n.ReadBy fun x => x := by
  intro id t _ x hx
  exact Decimal.float?_write _ (Token.isFinite_of_payload? hx)

end Node

namespace Selector

/-- **A program that was read is printed again.** Every program of a selector is read, and the term
that is read is printed as the program if and only if the selector has no hexadecimal literal above
the signed range. -/
theorem compile_reprint (text : String) (hints : Hints) (s : Selector)
    (hs : withHints text hints = .ok s) :
    ∃ program t, s.compile = .ok program ∧ Term.read program = .ok t ∧
      (t.print = program ↔ ¬ s.tree.HasWide) := by
  have hmade := made_of_withHints hs
  obtain ⟨program, hprogram, hread⟩ := hmade.read_program s.tree.readBy_self
  rw [Node.termBy_self] at hread
  obtain ⟨printed, hprinted, hreprints⟩ := hmade.accepted.formed.reprints
  obtain rfl : printed = program := Except.ok.inj (hprinted.symm.trans hprogram)
  exact ⟨printed, s.tree.term, hprogram, hread, hreprints.eq_iff⟩

/-- An operator between two literals is a selector, if it is a condition. -/
theorem withHints_operator {text : String} {left op right : Token} {o : BinaryOperator}
    (htokens : tokenize text = .ok [left, op, right]) (ho : op.kind.binary? = some o)
    (htakes : o.takesExpressions) (hl : left.kind.isOperand) (hr : right.kind.isOperand)
    (htype : Typing.HasType Hints.empty (.binary 0 op (.leaf 1 left) (.leaf 2 right)) .bool) :
    ∃ s, withHints text Hints.empty = .ok s ∧
      s.tree = .binary 0 op (.leaf 1 left) (.leaf 2 right) := by
  have hspells := @Spells.operator [left] [right] op (.leaf 0 left) (.leaf 0 right) o ho htakes
    (.literal hl) (.literal hr)
  have hparse : parse text = .ok (.binary 0 op (.leaf 1 left) (.leaf 2 right)) := by
    rw [parse, htokens]
    exact Parser.parse_of_spells (by simp) hspells
  exact withHints_of_hasType hparse htype (.inl rfl)

/-- A number with zeros around its digits. -/
theorem compile_reprint_less :
    ∃ s program t, withHints "x < 01.50" Hints.empty = .ok s ∧ s.compile = .ok program ∧
      Term.read program = .ok t ∧ t.print = program := by
  let x : Token := ⟨.ident, "x", 0⟩
  let less : Token := ⟨.less, "<", 2⟩
  let bound : Token := ⟨.float, "01.50", 4⟩
  have htokens : tokenize "x < 01.50" = .ok [x, less, bound] := by decide +kernel
  obtain ⟨s, hs, htree⟩ := withHints_operator htokens rfl rfl rfl rfl ⟨rfl, by decide⟩
  obtain ⟨program, t, hprogram, hread, hprint⟩ := compile_reprint _ _ s hs
  refine ⟨s, program, t, hs, hprogram, hread, hprint.2 ?_⟩
  rw [htree, Node.hasWide_iff]
  simp [Node.children, Node.hasWide_leaf, Token.not_wide, x, bound]

/-- The greatest unsigned word is printed as a floating point number. -/
theorem compile_reprint_word :
    ∃ s program t, withHints "x = 0xFFFFFFFFFFFFFFFF" Hints.empty = .ok s ∧
      s.compile = .ok program ∧ Term.read program = .ok t ∧
      program = "\x7b'=', \x7b'ident', <<\"x\">>\x7d, 18446744073709551615\x7d" ∧
      t.print = "\x7b'=', \x7b'ident', <<\"x\">>\x7d, 1.8446744073709552e19\x7d" ∧
      t.print ≠ program := by
  let x : Token := ⟨.ident, "x", 0⟩
  let equal : Token := ⟨.equal, "=", 2⟩
  let word : Token := ⟨.hex, "0xFFFFFFFFFFFFFFFF", 4⟩
  have htokens : tokenize "x = 0xFFFFFFFFFFFFFFFF" = .ok [x, equal, word] := by decide +kernel
  obtain ⟨s, hs, htree⟩ := withHints_operator htokens rfl rfl rfl rfl ⟨rfl, by decide⟩
  obtain ⟨program, hprogram, hread⟩ := (made_of_withHints hs).read_program s.tree.readBy_self
  rw [Node.termBy_self, htree] at hread
  have hcompile : s.compile =
      .ok "\x7b'=', \x7b'ident', <<\"x\">>\x7d, 18446744073709551615\x7d" := by
    rw [compile, htree]
    decide +kernel
  have hprint : (Node.binary 0 equal (.leaf 1 x) (.leaf 2 word)).term.print =
      "\x7b'=', \x7b'ident', <<\"x\">>\x7d, 1.8446744073709552e19\x7d" := by
    decide +kernel
  obtain rfl := Except.ok.inj (hprogram.symm.trans hcompile)
  refine ⟨s, _, _, hs, hprogram, hread, rfl, hprint, ?_⟩
  rw [hprint]
  decide

end Selector

end MessageSelector
