import MessageSelector.Proofs.Selection

/-!
# Hints

Hints decide whether a text is accepted, and nothing else (`withHints_hints`). A tree without type
errors has none under weaker hints either (`ExprType.Weaker`, `HasType.weaken`), so what is accepted
under some hints is accepted without any; and a tree that is accepted has the value of its term,
which no hint enters (`Made.agree`).
-/

namespace MessageSelector

/-! ## Weaker types -/

/-- A type that stands wherever another one does: the same, or the type of the unknown. -/
def ExprType.Weaker (a b : ExprType) : Prop :=
  a = b ∨ a = .any

namespace ExprType.Weaker

variable {a b c d e f : ExprType}

theorem refl (a : ExprType) : a.Weaker a :=
  .inl rfl

theorem valid (h : a.Weaker b) (hb : b ≠ .invalid) : a ≠ .invalid := by
  rcases h with rfl | rfl
  · exact hb
  · decide

theorem isCompatible (h : a.Weaker b) {wanted : ExprType} (hb : b.isCompatible wanted = true) :
    a.isCompatible wanted = true := by
  rcases h with rfl | rfl
  · exact hb
  · rfl

end ExprType.Weaker

namespace Typing

open ExprType (Weaker)

variable {hints weaker : Hints}

/-- An operator between expressions has the same type between operands of weaker types. -/
theorem binary_weaken {o : BinaryOperator} (ho : o.takesExpressions) {l r l' r' : ExprType}
    (hl : l'.Weaker l) (hr : r'.Weaker r) (hvalid : binary o l r ≠ .invalid) :
    binary o l' r' = binary o l r := by
  have hboth {wanted wanted' : ExprType}
      (h : (l.isCompatible wanted && r.isCompatible wanted') = true) :
      (l'.isCompatible wanted && r'.isCompatible wanted') = true := by
    simp only [Bool.and_eq_true] at h ⊢
    exact ⟨hl.isCompatible h.1, hr.isCompatible h.2⟩
  cases o with
  | and | or | arith =>
    have hholds := (require_valid hvalid).1
    simp only [binary, hholds, hboth hholds]
  | compare op =>
    cases op with
    | equal | notEqual =>
      have hholds := (require_valid hvalid).1
      have hholds' : comparable l' r' = true := by
        simp only [comparable, List.any_eq_true] at hholds ⊢
        obtain ⟨type, hmem, htype⟩ := hholds
        exact ⟨type, hmem, hboth htype⟩
      simp only [binary, hholds, hholds']
    | less | lessOrEqual | greater | greaterOrEqual =>
      have hholds := (require_valid hvalid).1
      simp only [binary, hholds, hboth hholds]
  | like | isIn => cases ho

theorem prefixed_weaken {o : PrefixOperator} {t t' : ExprType} (ht : t'.Weaker t)
    (hvalid : prefixed o t ≠ .invalid) : prefixed o t' = prefixed o t := by
  cases o <;>
  · have hholds := (require_valid hvalid).1
    simp only [prefixed, hholds, ht.isCompatible hholds]

/-- The left operand of `LIKE` and `IN` may have a weaker type. -/
theorem binary_weaken_left {o : BinaryOperator} (ho : o.takesExpressions = false)
    {l l' r : ExprType} (hl : l'.Weaker l) (hvalid : binary o l r ≠ .invalid) :
    binary o l' r = binary o l r := by
  cases o with
  | and | or | compare | arith => cases ho
  | like negated | isIn negated =>
    have hleft := (Bool.and_eq_true_iff.1 (require_valid hvalid).1).1
    simp only [binary, hleft, hl.isCompatible hleft]

theorem leaf_weaken (hw : ∀ name, (weaker name).Weaker (hints name)) {t : Token} {type : ExprType}
    (h : leaf hints t = .ok type) : ∃ type', leaf weaker t = .ok type' ∧ type'.Weaker type := by
  rw [leaf] at h ⊢
  cases hk : t.kind <;> rw [hk] at h <;> cases h
  case ident => exact ⟨_, rfl, hw t.text⟩
  all_goals exact ⟨_, rfl, .refl _⟩

/-- **A tree without type errors has none under weaker hints**, and its type is weaker. -/
theorem HasType.weaken {ok : Token → Prop} {n : Node} (hn : n.Formed ok)
    (hw : ∀ name, (weaker name).Weaker (hints name)) {type : ExprType}
    (h : HasType hints n type) : ∃ type', HasType weaker n type' ∧ type'.Weaker type := by
  have hleaf {i : Nat} {t : Token} {type : ExprType} (h : HasType hints (.leaf i t) type) :
      ∃ type', HasType weaker (.leaf i t) type' ∧ type'.Weaker type := by
    obtain ⟨htype, hvalid⟩ := hasType_leaf.1 h
    obtain ⟨type', htype', hweaker⟩ := leaf_weaken hw htype
    exact ⟨type', hasType_leaf.2 ⟨htype', hweaker.valid hvalid⟩, hweaker⟩
  induction hn generalizing type with
  | leaf => exact hleaf h
  | binary ho htakes _ _ ihl ihr =>
    obtain ⟨l, r, hl, hr, rfl, hvalid⟩ := (hasType_binary ho).1 h
    obtain ⟨l', hl', hwl⟩ := ihl hl
    obtain ⟨r', hr', hwr⟩ := ihr hr
    have heq := binary_weaken htakes hwl hwr hvalid
    exact ⟨_, (hasType_binary ho).2 ⟨l', r', hl', hr', heq, hvalid⟩, .refl _⟩
  | like ho _ _ hp =>
    obtain ⟨l, r, hl, hr, rfl, hvalid⟩ := (hasType_binary ho).1 h
    obtain ⟨l', hl', hwl⟩ := hleaf hl
    have heq := binary_weaken_left rfl hwl hvalid
    exact ⟨_, (hasType_binary ho).2 ⟨l', r, hl', (hasType_pattern hp).2 ((hasType_pattern hp).1 hr),
      heq, hvalid⟩, .refl _⟩
  | isIn ho =>
    obtain ⟨l, r, hl, hr, rfl, hvalid⟩ := (hasType_binary ho).1 h
    obtain ⟨l', hl', hwl⟩ := hleaf hl
    have heq := binary_weaken_left rfl hwl hvalid
    exact ⟨_, (hasType_binary ho).2 ⟨l', r, hl', hasType_list.2 (hasType_list.1 hr), heq, hvalid⟩,
      .refl _⟩
  | ternary ho _ _ _ ih₁ ih₂ ih₃ =>
    obtain ⟨t₁, t₂, t₃, h₁, h₂, h₃, rfl, hvalid⟩ := (hasType_ternary ho).1 h
    obtain ⟨t₁', h₁', hw₁⟩ := ih₁ h₁
    obtain ⟨t₂', h₂', hw₂⟩ := ih₂ h₂
    obtain ⟨t₃', h₃', hw₃⟩ := ih₃ h₃
    have hholds := (require_valid hvalid).1
    have hholds' : [t₁', t₂', t₃'].all (·.isCompatible .arith) = true := by
      simp only [List.all_cons, List.all_nil, Bool.and_true, Bool.and_eq_true] at hholds ⊢
      exact ⟨hw₁.isCompatible hholds.1, hw₂.isCompatible hholds.2.1, hw₃.isCompatible hholds.2.2⟩
    rw [hholds]
    exact ⟨.bool, (hasType_ternary ho).2 ⟨t₁', t₂', t₃', h₁', h₂', h₃', by rw [hholds']; rfl,
      by decide⟩, .refl _⟩
  | prefixOp ho _ ih =>
    obtain ⟨t, ht, rfl, hvalid⟩ := (hasType_prefixOp ho).1 h
    obtain ⟨t', ht', hwt⟩ := ih ht
    exact ⟨_, (hasType_prefixOp ho).2 ⟨t', ht', prefixed_weaken hwt hvalid, hvalid⟩, .refl _⟩
  | postfixOp ho =>
    obtain ⟨⟨t, ht⟩, rfl⟩ := (hasType_postfixOp ho).1 h
    obtain ⟨t', ht', -⟩ := hleaf ht
    exact ⟨_, (hasType_postfixOp ho).2 ⟨⟨t', ht'⟩, rfl⟩, .refl _⟩

end Typing

/-! ## Selectors under other hints -/

namespace Selector

open Typing (HasType)

/-- Selectors with one tree compile to one program and have one value for every message. -/
theorem Made.agree {text text' : String} {hints hints' : Hints} {s s' : Selector}
    (h : Made text hints s) (h' : Made text' hints' s') (htree : s'.tree = s.tree) :
    s'.compile = s.compile ∧ ∀ source, ∃ v, s.value source = .ok v ∧ s'.value source = .ok v ∧
      s.accepts source = .ok v.isTrue ∧ s'.accepts source = .ok v.isTrue := by
  refine ⟨by rw [compile, compile, htree], fun source => ?_⟩
  obtain ⟨v, hv, hterm⟩ := h.value_agrees source
  obtain ⟨v', hv', hterm'⟩ := h'.value_agrees source
  rw [htree, hterm] at hterm'
  cases hterm'
  rw [value] at hv hv'
  exact ⟨v, hv, hv', by rw [accepts, Evaluator.evaluate, hv]; rfl,
    by rw [accepts, Evaluator.evaluate, hv']; rfl⟩

/-- **Hints only affect checking.** A text that is accepted under some hints is accepted without
any; the selectors have the same tree and the same program, and the same value for every message.
So no two hint maps that accept a text give different answers. -/
theorem withHints_hints (text : String) (hints : Hints) (s : Selector)
    (hs : withHints text hints = .ok s) :
    (∃ s', ofText text = .ok s' ∧ s'.tree = s.tree ∧
      (∃ program, s.compile = .ok program ∧ s'.compile = .ok program) ∧
      ∀ source, ∃ v, s.value source = .ok v ∧ s'.value source = .ok v ∧
        s.accepts source = .ok v.isTrue ∧ s'.accepts source = .ok v.isTrue) ∧
    ∀ hints' s', withHints text hints' = .ok s' →
      ∀ source, s'.accepts source = s.accepts source := by
  have hmade := made_of_withHints hs
  refine ⟨?_, fun hints' s' hs' source => ?_⟩
  · obtain ⟨htype, hcondition⟩ := hmade.hasType
    have hempty (name : String) : (Hints.empty name).Weaker (hints name) := .inr rfl
    obtain ⟨type', htype', hweaker⟩ := htype.weaken hmade.accepted.formed hempty
    have hcondition' : type' = .bool ∨ type' = .any := by
      rcases hweaker with rfl | rfl
      · exact hcondition
      · exact .inr rfl
    obtain ⟨s', hs', htree⟩ := withHints_of_hasType hmade.parse_eq htype' hcondition'
    obtain ⟨hcompile, hvalue⟩ := hmade.agree (made_of_withHints hs') htree
    obtain ⟨program, hprogram, -⟩ := hmade.accepted.formed.compile_writes
    exact ⟨s', hs', htree, ⟨program, hprogram, hcompile.trans hprogram⟩, hvalue⟩
  · have hmade' := made_of_withHints hs'
    have htree : s'.tree = s.tree := Except.ok.inj (hmade'.parse_eq.symm.trans hmade.parse_eq)
    obtain ⟨v, -, -, hv, hv'⟩ := (hmade.agree hmade' htree).2 source
    rw [hv, hv']

/-- The operands of a comparison are numbers under one hint map, strings under another and of any
type without hints. -/
theorem withHints_hints_comparison :
    let text := "NOT (x = y)"
    ∃ s s' s'', withHints text (fun _ => .arith) = .ok s ∧
      withHints text (fun _ => .string) = .ok s' ∧ ofText text = .ok s'' ∧
      s.types.get 2 = .arith ∧ s'.types.get 2 = .string ∧ s''.types.get 2 = .any ∧
      s''.tree = s.tree ∧ s''.compile = s.compile ∧
      ∀ source, s'.accepts source = s.accepts source ∧ s''.accepts source = s.accepts source := by
  intro text
  let no : Token := ⟨.not, "NOT", 0⟩
  let start : Token := ⟨.openParen, "(", 4⟩
  let x : Token := ⟨.ident, "x", 5⟩
  let op : Token := ⟨.equal, "=", 7⟩
  let y : Token := ⟨.ident, "y", 9⟩
  let stop : Token := ⟨.closeParen, ")", 10⟩
  let tree : Node := .prefixOp 0 no (.binary 1 op (.leaf 2 x) (.leaf 3 y))
  have htokens : tokenize text = .ok [no, start, x, op, y, stop] := by decide +kernel
  have hparse : parse text = .ok tree := by
    have hequal : op.kind.binary? = some (.compare .equal) := rfl
    have hnot : no.kind.prefix? = some .not := rfl
    have hx : Spells [.rule .simple] [x] [.leaf 0 x] := .literal rfl
    have hy : Spells [.rule .simple] [y] [.leaf 0 y] := .literal rfl
    have hgroup : Spells [.rule .simple] [start, x, op, y, stop] _ :=
      (hx.operator hequal rfl hy).interior rfl rfl
    rw [parse, htokens]
    exact Parser.parse_of_spells (by decide) (hgroup.prefixOp hnot)
  have hmake (type : ExprType) (h : HasType (fun _ => type) tree .bool) :
      ∃ s, withHints text (fun _ => type) = .ok s ∧ s.types.get 2 = type := by
    obtain ⟨s, hs, htree⟩ := withHints_of_hasType hparse h (.inl rfl)
    have hmade := made_of_withHints hs
    have hleaf : Node.leaf 2 x ∈ s.tree.preorder := by
      rw [htree]
      exact .tail _ (.tail _ (.head _))
    have hentry := Node.typeOf_of_check hmade.check_eq hmade.accepted.nodup _ hleaf
    exact ⟨s, hs, (Except.ok.inj hentry).symm⟩
  obtain ⟨s, hs, htype⟩ := hmake .arith ⟨rfl, by decide⟩
  obtain ⟨s', hs', htype'⟩ := hmake .string ⟨rfl, by decide⟩
  obtain ⟨s'', hs'', htype''⟩ := hmake .any ⟨rfl, by decide⟩
  obtain ⟨⟨bare, hbare, htree, ⟨program, hprogram, hprogram'⟩, -⟩, haccepts⟩ :=
    withHints_hints _ _ s hs
  cases hs''.symm.trans hbare
  exact ⟨s, s', s'', hs, hs', hs'', htype, htype', htype'', htree,
    hprogram'.trans hprogram.symm, fun source =>
      ⟨haccepts _ s' hs' source, haccepts _ s'' hs'' source⟩⟩

end Selector

end MessageSelector
