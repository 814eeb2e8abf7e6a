import MessageSelector.Proofs.Formed
import MessageSelector.Proofs.Relexing
import MessageSelector.Proofs.Translation

/-!
# Canonical text

The canonical text of a tree is scanned without a residue (`Formed.scannable`), and the kinds and
texts of its tokens are read off the tree (`Node.words`). A text is scanned piece by piece from its
end (`Scans`): what is put in front of a text must not go on with it, and behind an operand stands
only what ends every operand.
-/

namespace MessageSelector

open Token (firstLexeme? Follows Opens)
open Token.Kind (openParen closeParen)

theorem Text.isBlank_of_mem_space : ∀ c ∈ " ".toList, isBlank c := by
  intro c hc
  obtain rfl : c = ' ' := by simpa using hc
  rfl

/-! ## Scanned words -/

/-- The kind and the text of a token. -/
def Token.word (t : Token) : Token.Kind × String :=
  (t.kind, t.text)

/-- A keyword or symbol in its canonical spelling. -/
def Token.Kind.word (kind : Token.Kind) : Token.Kind × String :=
  (kind, kind.spelling)

/-- The text is scanned as the words, with no residue. -/
inductive Scans : List Char → List (Token.Kind × String) → Prop
  | done : Scans [] []
  | blanks {gap cs : List Char} {words : List (Token.Kind × String)} : gap ≠ [] →
    (∀ c ∈ gap, Text.isBlank c) → (∀ c, cs.head? = some c → Text.isBlank c = false) →
      Scans cs words → Scans (gap ++ cs) words
  | word {kind : Token.Kind} {text : String} {rest : List Char}
    {words : List (Token.Kind × String)} :
    firstLexeme? (text.toList ++ rest) = some (some kind, text.toList.length) →
      text.toList ≠ [] → (∀ offset, Token.Valued ⟨kind, text, offset⟩) → Scans rest words →
      Scans (text.toList ++ rest) ((kind, text) :: words)

namespace Scans

theorem textFrom {cs : List Char} {words : List (Token.Kind × String)} (h : Scans cs words)
    (offset : Nat) :
    (Scan.textFrom offset cs).residue = "" ∧
      (Scan.textFrom offset cs).tokens.map Token.word = words := by
  induction h generalizing offset with
  | done =>
    rw [Scan.textFrom]
    exact ⟨rfl, rfl⟩
  | @blanks gap cs words hne hgap hcs _ ih =>
    have hfirst := Token.firstLexeme?_blanks hne hgap hcs
    obtain ⟨c, tail, rfl⟩ := List.exists_cons_of_ne_nil hne
    rw [List.cons_append, List.length_cons] at hfirst
    rw [List.cons_append, Scan.textFrom, hfirst]
    simp only [List.drop_left]
    exact ih _
  | @word kind text rest words hfirst hne hvalued _ ih =>
    rw [Scan.textFrom_token hne hfirst,
      if_neg (by simp [show Scan.stopsAt _ = false from hvalued offset])]
    exact ⟨(ih _).1, congrArg _ (ih _).2⟩

theorem tokenize {text : String} {words : List (Token.Kind × String)}
    (h : Scans text.toList words) :
    (Scan.text text).residue = "" ∧
      ∃ tokens, tokenize text = .ok tokens ∧ tokens.map Token.word = words := by
  obtain ⟨hresidue, hwords⟩ := h.textFrom 0
  refine ⟨hresidue, (Scan.textFrom 0 text.toList).tokens, ?_, hwords⟩
  rw [MessageSelector.tokenize, Scan.text, Scan.result, Scan.isComplete, hresidue]
  rfl

/-- A keyword or symbol in its canonical spelling is never a number without a value. -/
theorem valued_of_isNumeric {kind : Token.Kind} (h : kind.isNumeric = false) (text : String)
    (offset : Nat) : Token.Valued ⟨kind, text, offset⟩ := by
  rw [Token.Valued, Scan.stopsAt, h, Bool.false_and]

variable {cs : List Char} {words : List (Token.Kind × String)}

/-- One blank in front of anything else. -/
theorem blank (hcs : ∀ c, cs.head? = some c → Text.isBlank c = false) (h : Scans cs words) :
    Scans (' ' :: cs) words :=
  @blanks [' '] cs words (List.cons_ne_nil _ _) (List.forall_mem_singleton.2 rfl) hcs h

theorem mark {kind : Token.Kind}
    (hkind : kind ∈ [openParen, closeParen, .comma, .plus, .minus]) (h : Scans cs words) :
    Scans (kind.spelling.toList ++ cs) (kind.word :: words) := by
  refine .word (Token.firstLexeme?_mark hkind cs) ?_ (valued_of_isNumeric ?_ _) h
  · revert kind
    decide
  · revert kind
    decide

theorem openBracket (h : Scans cs words) : Scans ('(' :: cs) (openParen.word :: words) :=
  @mark _ _ openParen (by decide) h

theorem closeBracket (h : Scans cs words) : Scans (')' :: cs) (closeParen.word :: words) :=
  @mark _ _ closeParen (by decide) h

/-- A comma with blanks behind it, or none, in front of anything else. -/
theorem comma {gap : List Char} (hgap : ∀ c ∈ gap, Text.isBlank c)
    (hcs : ∀ c, cs.head? = some c → Text.isBlank c = false) (h : Scans cs words) :
    Scans (',' :: (gap ++ cs)) (Token.Kind.comma.word :: words) := by
  have hscans : Scans (gap ++ cs) words := by
    cases gap with
    | nil => exact h
    | cons c gap => exact .blanks (List.cons_ne_nil c gap) hgap hcs h
  exact @mark _ _ .comma (by decide) hscans

/-- Blanks and numbers do not start as operators do. -/
theorem spelling_of_isInfix {kind : Token.Kind} (h : kind.isInfix) (rest : List Char) :
    kind.spelling.toList ≠ [] ∧ kind.isNumeric = false ∧
      ∀ c, (kind.spelling.toList ++ rest).head? = some c → Text.isBlank c = false := by
  cases kind <;> first
    | contradiction
    | exact ⟨by decide, rfl, by rintro _ ⟨⟩; rfl⟩

/-- An operator between blanks, in front of an operand. -/
theorem operator {kind : Token.Kind} (hkind : kind.isInfix) (hopens : Opens cs)
    (h : Scans cs words) :
    Scans (' ' :: (kind.spelling.toList ++ ' ' :: cs)) (kind.word :: words) := by
  obtain ⟨hne, hnumeric, hblank⟩ := spelling_of_isInfix hkind (' ' :: cs)
  have hcs := h.blank hopens.none_before.1
  exact .blank hblank
    (.word (Token.firstLexeme?_operator hkind cs) hne (valued_of_isNumeric hnumeric _) hcs)

/-- An operator behind its operand, in front of a closing bracket. -/
theorem postfixOp {kind : Token.Kind} {negated : Bool}
    (hkind : kind.postfixNegated? = some negated) (h : Scans (')' :: cs) words) :
    Scans (' ' :: (kind.spelling.toList ++ ')' :: cs)) (kind.word :: words) := by
  have hinfix := Token.Kind.isInfix_of_postfix hkind
  obtain ⟨hne, hnumeric, hblank⟩ := spelling_of_isInfix hinfix (')' :: cs)
  exact .blank hblank
    (.word (Token.firstLexeme?_postfix hkind cs) hne (valued_of_isNumeric hnumeric _) h)

theorem not (hopens : Opens cs) (h : Scans cs words) :
    Scans ("NOT".toList ++ ' ' :: cs) (Token.Kind.not.word :: words) :=
  .word hopens.firstLexeme?_not (by decide) (valued_of_isNumeric rfl _)
    (h.blank hopens.none_before.1)

theorem quote (s : String) (hcs : cs.head? ≠ some '\'') (h : Scans cs words) :
    Scans ((Text.quote s).toList ++ cs) ((.string, Text.quote s) :: words) := by
  have hfirst := Token.firstLexeme?_string (Token.quoteBody_doubleQuotes s.toList) hcs
  refine .word ?_ ?_ (valued_of_isNumeric rfl _) h
  · simp only [Text.quote, String.toList_ofList]
    rw [List.cons_append, List.append_assoc, List.singleton_append, hfirst]
    simp
  · simp [Text.quote]

end Scans

/-! ## Words of a tree -/

/-- The words of a list of strings, between its brackets. -/
def listWords : List String → List (Token.Kind × String)
  | [] => []
  | [s] => [(.string, Text.quote s)]
  | s :: items => (.string, Text.quote s) :: Token.Kind.comma.word :: listWords items

/-- Words between brackets. -/
def inBrackets (words : List (Token.Kind × String)) : List (Token.Kind × String) :=
  openParen.word :: (words ++ [closeParen.word])

/-- The words of the canonical text of a tree. -/
def Node.words : Node → List (Token.Kind × String)
  | leaf _ token => [(token.kind, printLeaf token)]
  | binary _ op left right => inBrackets (left.words ++ op.kind.word :: right.words)
  | ternary _ op first second third =>
    inBrackets (first.words ++ op.kind.word ::
      (second.words ++ Token.Kind.and.word :: third.words))
  | prefixOp _ op operand => inBrackets (op.kind.word :: operand.words)
  | postfixOp _ op operand => inBrackets (operand.words ++ [op.kind.word])
  | pattern _ text => text.words
  | escaped _ text escape => text.words ++ Token.Kind.escape.word :: escape.words
  | list _ items => inBrackets (listWords items)

/-- A token that a scan found, with a value. -/
structure Token.Scanned (t : Token) : Prop where
  found : t.Found
  valued : t.Valued

theorem Token.opens_bracket (cs : List Char) : Opens ('(' :: cs) :=
  ⟨openParen, _, @firstLexeme?_mark openParen (by decide) cs, by decide⟩

namespace Node

theorem printLeaf_cases (t : Token) :
    (t.kind = .trueWord ∨ t.kind = .falseWord) ∧ printLeaf t = t.kind.spelling ∨
      printLeaf t = t.text := by
  rw [printLeaf]
  split
  · next hkind => exact .inl ⟨.inl hkind, rfl⟩
  · next hkind => exact .inl ⟨.inr hkind, rfl⟩
  · exact .inr rfl

/-- Wherever the canonical text of the tree is followed as an operand is, it is scanned as the
words of the tree. -/
structure Scannable (n : Node) : Prop where
  opens : ∀ {rest : List Char}, Follows rest → Opens (n.print.toList ++ rest)
  scans : ∀ {rest : List Char} {words : List (Token.Kind × String)}, Follows rest →
    Scans rest words → Scans (n.print.toList ++ rest) (n.words ++ words)

namespace Scannable

attribute [local simp] print printPrefix words inBrackets

/-- A tree in brackets starts as an operand does. -/
theorem of_bracket {n : Node} (text : List Char)
    (hprint : ∀ rest, n.print.toList ++ rest = '(' :: (text ++ ')' :: rest))
    (hscans : ∀ {rest : List Char} {words : List (Token.Kind × String)},
      Scans (')' :: rest) (closeParen.word :: words) →
        Scans ('(' :: (text ++ ')' :: rest)) (n.words ++ words)) : n.Scannable where
  opens {rest} _ := by
    rw [hprint]
    exact Token.opens_bracket _
  scans {rest words} _ h := by
    rw [hprint]
    exact hscans h.closeBracket

theorem leaf {id : Nat} {t : Token} (hk : t.kind.isOperand) (ht : t.Scanned) :
    (leaf id t).Scannable where
  opens hrest := ht.found.opens_printLeaf hk hrest
  scans {rest words} hrest h := by
    obtain ⟨hne, hvalued⟩ : (printLeaf t).toList ≠ [] ∧
        ∀ offset, Token.Valued ⟨t.kind, printLeaf t, offset⟩ := by
      rcases printLeaf_cases t with ⟨hkind, htext⟩ | htext
      · rw [htext]
        rcases hkind with hkind | hkind <;> rw [hkind] <;>
          exact ⟨by decide, Scans.valued_of_isNumeric rfl _⟩
      · rw [htext]
        exact ⟨ht.found.ne_nil, fun _ => ht.valued⟩
    exact .word (ht.found.firstLexeme?_printLeaf hk hrest) hne hvalued h

theorem binary {id : Nat} {op : Token} {left right : Node} (hop : op.kind.isInfix)
    (hleft : left.Scannable) (hright : right.Scannable) :
    (binary id op left right).Scannable := by
  refine of_bracket (left.print.toList ++ ' ' :: (op.kind.spelling.toList ++ ' ' ::
    right.print.toList)) (fun rest => by simp) fun {rest words} h => ?_
  -- The text is put together from its end: each step has to know what follows it.
  have hright' := Scans.operator hop (hright.opens (.close rest)) (hright.scans (.close rest) h)
  have hscans := (hleft.scans (.operator _ hop) hright').openBracket
  simpa using hscans

theorem ternary {id : Nat} {op : Token} {first second third : Node} (hop : op.kind.isInfix)
    (hfirst : first.Scannable) (hsecond : second.Scannable) (hthird : third.Scannable) :
    (ternary id op first second third).Scannable := by
  refine of_bracket (first.print.toList ++ ' ' :: (op.kind.spelling.toList ++ ' ' ::
    (second.print.toList ++ ' ' :: ("AND".toList ++ ' ' :: third.print.toList))))
    (fun rest => by simp) fun {rest words} h => ?_
  have hand : Token.Kind.and.isInfix := rfl
  have hthird' := Scans.operator hand (hthird.opens (.close rest)) (hthird.scans (.close rest) h)
  have hfollows := Follows.operator (' ' :: (third.print.toList ++ ')' :: rest)) hand
  have hsecond' := Scans.operator hop (hsecond.opens hfollows) (hsecond.scans hfollows hthird')
  have hscans := (hfirst.scans (.operator _ hop) hsecond').openBracket
  simpa [Token.Kind.spelling] using hscans

theorem prefixOp {id : Nat} {op : Token} {o : PrefixOperator} {operand : Node}
    (hop : op.kind.prefix? = some o) (h : operand.Scannable) :
    (prefixOp id op operand).Scannable := by
  cases hkind : op.kind <;> rw [hkind] at hop <;> first | contradiction | skip
  case not =>
    refine of_bracket ("NOT".toList ++ ' ' :: operand.print.toList)
      (fun rest => by simp [hkind]) fun {rest words} hrest => ?_
    have hscans := Scans.not (h.opens (.close rest)) (h.scans (.close rest) hrest)
    simpa [hkind] using hscans.openBracket
  all_goals
    refine of_bracket (op.kind.spelling.toList ++ operand.print.toList)
      (fun rest => by simp [hkind]) fun {rest words} hrest => ?_
    have hmark : op.kind ∈ [openParen, closeParen, .comma, .plus, .minus] := by
      rw [hkind]
      decide
    have hscans := Scans.mark hmark (h.scans (.close rest) hrest)
    simpa using hscans.openBracket

theorem postfixOp {id : Nat} {op : Token} {negated : Bool} {operand : Node}
    (hop : op.kind.postfixNegated? = some negated) (h : operand.Scannable) :
    (postfixOp id op operand).Scannable := by
  refine of_bracket (operand.print.toList ++ ' ' :: op.kind.spelling.toList)
    (fun rest => by simp) fun {rest words} hrest => ?_
  have hinfix := Token.Kind.isInfix_of_postfix hop
  have hscans := h.scans (.operator _ hinfix) (Scans.postfixOp hop hrest)
  simpa using hscans.openBracket

theorem pattern {id : Nat} {text : Node} (h : text.Scannable) : (pattern id text).Scannable :=
  ⟨h.opens, h.scans⟩

theorem escaped {id : Nat} {text escape : Node} (htext : text.Scannable)
    (hescape : escape.Scannable) : (escaped id text escape).Scannable := by
  have hprint (rest : List Char) : (Node.escaped id text escape).print.toList ++ rest =
      text.print.toList ++ ' ' :: ("ESCAPE".toList ++ ' ' :: (escape.print.toList ++ rest)) := by
    simp
  have hinfix : Token.Kind.escape.isInfix := rfl
  refine ⟨fun {rest} _ => ?_, fun {rest words} hrest h => ?_⟩
  · rw [hprint]
    exact htext.opens (.operator (' ' :: (escape.print.toList ++ rest)) hinfix)
  · rw [hprint]
    have hscans := Scans.operator hinfix (hescape.opens hrest) (hescape.scans hrest h)
    have hscans := htext.scans (.operator _ hinfix) hscans
    simpa [Token.Kind.spelling] using hscans

/-- The characters of a list of strings, between its brackets, with blanks behind its commas. -/
theorem scans_items {gap : String} (hgap : ∀ c ∈ gap.toList, Text.isBlank c)
    {items : List String} {rest : List Char} {words : List (Token.Kind × String)}
    (h : Scans (')' :: rest) words) :
    Scans ((String.intercalate ("," ++ gap) (items.map Text.quote)).toList ++ ')' :: rest)
      (listWords items ++ words) := by
  fun_induction listWords items with
  | case1 => exact h
  | case2 s => exact h.quote s (by simp)
  | case3 s items hne ih =>
    obtain ⟨s', items, rfl⟩ := List.exists_cons_of_ne_nil fun hnil => hne hnil
    -- The next string starts with a quote, which is no blank.
    have hquote : ∀ c, ((String.intercalate ("," ++ gap)
        ((s' :: items).map Text.quote)).toList ++ ')' :: rest).head? = some c →
          Text.isBlank c = false := by
      cases items <;> simp [Text.quote] <;> rfl
    have hscans := (Scans.comma hgap hquote ih).quote s (by simp)
    simpa [String.intercalate_cons_cons] using hscans

theorem list {id : Nat} {items : List String} : (list id items).Scannable := by
  refine of_bracket (String.intercalate ", " (items.map Text.quote)).toList
    (fun rest => by simp) fun {rest words} hrest => ?_
  simpa using (scans_items Text.isBlank_of_mem_space hrest).openBracket

end Scannable

theorem PatternFormed.scannable {n : Node} (h : n.PatternFormed Token.Scanned) :
    n.Scannable := by
  have hleaf {i : Nat} {t : Token} (hk : t.kind = .string) (ht : t.Scanned) :
      (Node.leaf i t).Scannable := .leaf (by rw [hk]; rfl) ht
  cases h with
  | pattern hk ht => exact .pattern (hleaf hk ht)
  | escaped hk ht hk' ht' => exact .escaped (hleaf hk ht) (hleaf hk' ht')

/-- The canonical text of a formed tree is scanned as its words. -/
theorem Formed.scannable {n : Node} (h : n.Formed Token.Scanned) : n.Scannable := by
  have hident {i : Nat} {x : Token} (hk : x.kind = .ident) (hx : x.Scanned) :
      (Node.leaf i x).Scannable := .leaf (by rw [hk]; rfl) hx
  induction h with
  | leaf hk ht => exact .leaf hk ht
  | binary ho _ _ _ ihl ihr => exact .binary (Token.Kind.isInfix_of_binary ho) ihl ihr
  | like ho hk hx hp =>
    exact .binary (Token.Kind.isInfix_of_binary ho) (hident hk hx) hp.scannable
  | isIn ho hk hx _ => exact .binary (Token.Kind.isInfix_of_binary ho) (hident hk hx) .list
  | ternary ho _ _ _ ih₁ ih₂ ih₃ =>
    exact .ternary (Token.Kind.isInfix_of_ternary ho) ih₁ ih₂ ih₃
  | prefixOp ho _ ih => exact .prefixOp ho ih
  | postfixOp ho hk hx => exact .postfixOp ho (hident hk hx)

end Node

end MessageSelector
