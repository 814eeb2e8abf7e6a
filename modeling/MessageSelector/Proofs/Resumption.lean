import MessageSelector.Proofs.Limit
import MessageSelector.Proofs.Locality

/-!
# Parsing from a cursor

A session may parse what is left of its tokens (`Session.parse_left`). What it recognizes is what a
new parser recognizes in the tokens that are left, since plain recognition looks at no others; the
limit can only be met later, where the memo answers calls that a new parser has to make
(`Memo.Frame`).

The tree is another matter. It is the one remembered for the first token (`Kept.remembered_cases`),
so it is the tree of the tokens that are left only if the cursor stands at the first one.
-/

namespace MessageSelector

open Recognition (Attempt)

/-! ## What recognition leaves alone -/

/-- The entries in front of a position are the same in both memos. -/
def Memo.Frame (p : Nat) (memo memo' : Memo) : Prop :=
  ∀ (r : Rule) (q : Nat), q < p → memo'.entries[(r, q)]? = memo.entries[(r, q)]?

namespace Memo.Frame

variable {p p' : Nat} {memo memo' memo'' : Memo}

theorem refl (p : Nat) (memo : Memo) : Frame p memo memo :=
  fun _ _ _ => rfl

theorem trans (h : Frame p memo memo') (h' : Frame p memo' memo'') : Frame p memo memo'' := by
  intro r q hq
  rw [h' r q hq, h r q hq]

theorem mono (h : Frame p' memo memo') (hp : p ≤ p') : Frame p memo memo' := by
  intro r q hq
  exact h r q (by omega)

theorem reach (p : Nat) (memo : Memo) : Frame p memo (memo.reach p) :=
  fun _ _ _ => rfl

theorem record (h : Frame p memo memo') (r : Rule) (o : Option Match) :
    Frame p memo (memo'.record r p o) := by
  intro r' q hq
  rw [← h r' q hq]
  unfold Memo.record
  rw [Std.HashMap.getElem?_insert, if_neg]
  intro heq
  cases eq_of_beq heq
  omega

end Memo.Frame

namespace Discipline

variable {s : TokenStream}

/-- Sub-rules leave the entries in front of their position alone. -/
def FramedSub (s : TokenStream) (sub : Rule → Nat → Attempt Match) : Prop :=
  ∀ r p memo, p ≤ s.tokens.toList.length → (free s.tokens.toList).Sound memo →
    Memo.Frame p memo (sub r p memo).2

theorem symbols_frame {sub : Rule → Nat → Attempt Match}
    (hsub : SoundSub (free s.tokens.toList) (fun _ q => q ≤ s.tokens.toList.length) sub)
    (hframe : FramedSub s sub) {symbols : List Symbol} {p : Nat} {memo : Memo}
    (hp : p ≤ s.tokens.toList.length) (hmemo : (free s.tokens.toList).Sound memo) :
    Memo.Frame p memo (Recognition.symbols s sub symbols p memo).2 := by
  induction symbols generalizing p memo with
  | nil => exact .refl p memo
  | cons x symbols ih =>
    cases x with
    | token kind =>
      rw [Recognition.symbols, get?_eq]
      cases ht : s.tokens.toList[p]? with
      | none => exact .reach p memo
      | some t =>
        have hlt := (List.getElem?_eq_some_iff.1 ht).1
        by_cases hk : t.kind = kind
        · have hrest : Memo.Frame (p + 1) memo (Recognition.symbols s sub symbols (p + 1) memo).2 :=
            ih hlt hmemo
          simp only [hk, ↓reduceIte]
          exact hrest.mono (Nat.le_succ p)
        · simp only [hk, ↓reduceIte]
          exact .reach p memo
    | rule r =>
      obtain ⟨hsound, hout⟩ := hsub r p memo hp hmemo
      have hfirst := hframe r p memo hp hmemo
      rw [Recognition.symbols]
      rcases hres : sub r p memo with ⟨out, memo'⟩
      rw [hres] at hsound hout hfirst
      rcases out with e | _ | found
      · exact hfirst
      · exact hfirst
      · obtain ⟨-, body, hbody⟩ := hout
        have hstop := hbody.sound.2.2
        have hrest := ih (hbody.stop_le hp) hsound
        exact hfirst.trans (hrest.mono (by omega))

theorem alternatives_frame {sub : Rule → Nat → Attempt Match}
    (hsub : SoundSub (free s.tokens.toList) (fun _ q => q ≤ s.tokens.toList.length) sub)
    (hframe : FramedSub s sub) {alternatives : List Alternative} {index p : Nat} {memo : Memo}
    (hp : p ≤ s.tokens.toList.length) (hmemo : (free s.tokens.toList).Sound memo) :
    Memo.Frame p memo (Recognition.alternatives s sub p alternatives index memo).2 := by
  induction alternatives generalizing index memo with
  | nil => exact .refl p memo
  | cons a alternatives ih =>
    have hadmits : Admits s.tokens.toList (fun _ q => q ≤ s.tokens.toList.length) a.symbols p :=
      Admits.of_forall hp fun _ _ _ hq => hq
    have hsound := (symbols_sound hsub hadmits hmemo).1
    have hfirst : Memo.Frame p memo (Recognition.symbols s sub a.symbols p memo).2 :=
      symbols_frame hsub hframe hp hmemo
    rw [Recognition.alternatives]
    rcases hres : Recognition.symbols s sub a.symbols p memo with ⟨out, memo'⟩
    rw [hres] at hsound hfirst
    rcases out with e | _ | found
    · exact hfirst
    · exact hfirst.trans (ih hsound)
    · exact hfirst

/-- Recognizing a rule leaves the entries in front of its position alone. -/
theorem rule_frame (room : Nat) : FramedSub s (Recognition.rule s room) := by
  induction room with
  | zero =>
    intro r p memo _ _
    exact .refl p memo
  | succ room ih =>
    intro r p memo hp hmemo
    rw [Recognition.rule]
    split
    · exact .refl p memo
    · have hsub : SoundSub (free s.tokens.toList) (fun _ q => q ≤ s.tokens.toList.length)
          (Recognition.rule s room) :=
        fun r p memo hp hmemo => rule_sound hp hmemo
      have hframe : Memo.Frame p memo
          (Recognition.alternatives s (Recognition.rule s room) p r.alternatives 0 memo).2 :=
        alternatives_frame hsub ih hp hmemo
      rcases hres : Recognition.alternatives s (Recognition.rule s room) p r.alternatives 0 memo
        with ⟨out, memo'⟩
      rw [hres] at hframe
      cases out with
      | error e => exact hframe
      | ok o => exact hframe.record r o

end Discipline

namespace Parser

variable {tokens : List Token} {p : Parser}

/-- What is built for the first token is the tree of a match there, or nothing is remembered. -/
theorem Kept.remembered_cases (h : Kept (.free tokens) p) :
    (∃ found n, p.memo.entries[(Rule.root, 0)]? = some (some found) ∧
      Builds tokens Rule.root 0 found n ∧ p.remembered = .ok n.number.1) ∨
    ((∀ found, p.memo.entries[(Rule.root, 0)]? ≠ some (some found)) ∧
      p.remembered = .error (.defect (.notRecognized Rule.root 0))) := by
  by_cases hfound : ∃ found, p.memo.entries[(Rule.root, 0)]? = some (some found)
  · obtain ⟨found, hentry⟩ := hfound
    obtain ⟨n, hbuilds, hremembered⟩ := h.remembered_eq hentry
    exact .inl ⟨found, n, hentry, hbuilds, hremembered⟩
  · have hnone := not_exists.1 hfound
    exact .inr ⟨hnone, remembered_of_unmatched hnone⟩

/-- Behind the first token, a call does not change what is built for it. -/
theorem Kept.remembered_recognize (h : Kept (.free tokens) p) (hposition : 0 < p.stream.position)
    (rule : Rule) (depth : Nat) : (p.recognize rule depth).2.remembered = p.remembered := by
  have hnext := (h.recognize rule depth h.position_le).1
  have hentry : (p.recognize rule depth).2.memo.entries[(Rule.root, 0)]? =
      p.memo.entries[(Rule.root, 0)]? := by
    obtain ⟨rfl, hle, hmemo, -⟩ := h
    have hframe := Discipline.rule_frame (maxRuleDepth + 1 - depth) rule p.stream.position p.memo
      hle hmemo Rule.root 0 hposition
    unfold Parser.recognize
    rcases hres : Recognition.rule p.stream (maxRuleDepth + 1 - depth) rule p.stream.position p.memo
      with ⟨out, memo⟩
    rw [hres] at hframe
    rcases out with e | _ | found <;> exact hframe
  rcases h.remembered_cases with ⟨found, n, hfound, hbuilds, heq⟩ | ⟨hnone, heq⟩
  · obtain ⟨n', hbuilds', heq'⟩ := hnext.remembered_eq (hentry.trans hfound)
    rw [heq, heq', hbuilds.unique hbuilds']
  · rw [heq, remembered_of_unmatched]
    rw [hentry]
    exact hnone

/-- A tree that is built for the first token is that of a match there. -/
theorem Kept.remembered_ok (h : Kept (.free tokens) p) {tree : Node}
    (htree : p.remembered = .ok tree) :
    ∃ stop d, Recognizes tokens [.rule Rule.root] 0 (some (stop, d)) ∧ d.tree? = some tree := by
  rcases h.remembered_cases with ⟨found, n, -, ⟨body, hmatch, hnode⟩, heq⟩ | ⟨-, heq⟩
  · cases heq.symm.trans htree
    exact ⟨_, _, hmatch, by rw [Derivation.tree?, hnode]⟩
  · cases heq.symm.trans htree

/-- A new parser of the tokens that are left. -/
def rest (tokens : List Token) (p : Parser) : Parser :=
  .ofList (tokens.drop p.stream.position)

/-- Behind the tokens in front of the cursor, the same stands at every position. -/
theorem Kept.at_rest (h : Kept (.free tokens) p) {position : Nat}
    (hlt : position < (tokens.drop p.stream.position).length) :
    (rest tokens p).stream.offsetAt position = p.stream.offsetAt (p.stream.position + position) ∧
      (rest tokens p).stream.foundAt position =
        p.stream.foundAt (p.stream.position + position) := by
  have hget : (rest tokens p).stream.get? position =
      p.stream.get? (p.stream.position + position) := by
    rw [Discipline.get?_eq, Discipline.get?_eq, h.tokens_eq, ← List.getElem?_drop]
    rfl
  obtain ⟨t, ht⟩ : ∃ t, (rest tokens p).stream.get? position = some t := by
    rw [Discipline.get?_eq]
    exact ⟨_, List.getElem?_eq_getElem hlt⟩
  simp only [TokenStream.offsetAt, TokenStream.foundAt, ← hget, ht, and_self]

/-- What is found at the cursor is what is found in the tokens that are left. -/
theorem answer_left {cursor : Nat} {new o : Option Match}
    (hnew : (Discipline.nested (tokens.drop cursor)).Answer Rule.root 0 new)
    (ho : (Discipline.shallow tokens).Answer Rule.root cursor o) :
    o = new.map fun m => { m with stop := cursor + m.stop } := by
  have hfinds := Discipline.answer_iff.1 ho
  have hleft := (Discipline.answer_iff.1 hnew).2
  exact hfinds.2.unique (hleft.relocate List.drop_zero)

/-- The new parser has the whole limit for the tokens that are left. -/
theorem rest_parses (hlt : p.stream.position < tokens.length) :
    Parses (.nested (tokens.drop p.stream.position)) (rest tokens p) (rest tokens p).parse := by
  have hne : tokens.drop p.stream.position ≠ [] := by simpa using hlt
  exact Kept.parse (.start (.nested _) 0) hne ⟨⟨rfl, rfl⟩, rfl⟩

section Left

variable (h : Kept (.free tokens) p) (hlt : p.stream.position < tokens.length)

include h hlt

/-- Where plain recognition of the tokens that are left stays within the limit, the limit is not met
in a session either. -/
theorem Kept.parses_left
    (hkeep : (Discipline.nested (tokens.drop p.stream.position)).keep Rule.root 0) :
    Parses (.shallow tokens) p p.parse := by
  have hkept : Kept (.shallow tokens) p := h.weaken fun _ _ => trivial
  have hshallow : Shallow (tokens.drop p.stream.position) (maxRuleDepth + 1) Rule.root 0 :=
    hkeep _ rfl
  apply hkept.parse
  · rintro rfl
    exact absurd hlt (Nat.not_lt_zero _)
  · exact hshallow.relocate List.drop_zero

theorem Kept.noMatch_left {position offset : Nat} {found : String}
    (hnew : (rest tokens p).parse = .error (.parse (.noMatch position offset found))) :
    ∃ position' offset' found',
      p.parse = .error (.parse (.noMatch position' offset' found')) := by
  have hrest := rest_parses hlt
  generalize (rest tokens p).parse = out at hrest hnew
  cases hrest with
  | trailing | tooDeep => cases hnew
  | whole _ _ hentry hnext =>
    obtain ⟨n, -, heq⟩ := hnext.remembered_eq hentry
    cases heq.symm.trans hnew
  | noMatch hnone =>
    have hparses := h.parses_left hlt hnone.1
    generalize p.parse = out at hparses ⊢
    cases hparses with
    | noMatch => exact ⟨_, _, _, rfl⟩
    | tooDeep hzero => exact hzero.elim
    | trailing hfound _ => cases answer_left hnone hfound
    | whole hfound _ _ _ => cases answer_left hnone hfound

theorem Kept.trailing_left {position offset : Nat} {found : String}
    (hnew : (rest tokens p).parse = .error (.parse (.trailingTokens position offset found))) :
    p.parse = .error
      (.parse (.trailingTokens (p.stream.position + position) offset found)) := by
  have hrest := rest_parses hlt
  generalize (rest tokens p).parse = out at hrest hnew
  cases hrest with
  | noMatch | tooDeep => cases hnew
  | whole _ _ hentry hnext =>
    obtain ⟨n, -, heq⟩ := hnext.remembered_eq hentry
    cases heq.symm.trans hnew
  | trailing hmatch hmore =>
    cases hnew
    have hparses := h.parses_left hlt hmatch.1
    obtain ⟨hoffset, hfoundAt⟩ := h.at_rest hmore
    rw [List.length_drop] at hmore
    rw [hoffset, hfoundAt]
    generalize p.parse = out at hparses ⊢
    cases hparses with
    | tooDeep hzero => exact hzero.elim
    | noMatch hnone => cases answer_left hmatch hnone
    | trailing hfound _ =>
      cases answer_left hmatch hfound
      rfl
    | whole hfound hend _ _ =>
      cases answer_left hmatch hfound
      dsimp only at hend
      omega

theorem Kept.ok_left {tree : Node} (hnew : (rest tokens p).parse = .ok tree) :
    p.parse = if p.stream.position = 0 then .ok tree else p.remembered := by
  have hrest := rest_parses hlt
  generalize (rest tokens p).parse = out at hrest hnew
  cases hrest with
  | noMatch | trailing | tooDeep => cases hnew
  | whole hmatch hend hentry hnext =>
    obtain ⟨n, hbuilds, heq⟩ := hnext.remembered_eq hentry
    cases heq.symm.trans hnew
    have hparses := h.parses_left hlt hmatch.1
    have hremembered := h.remembered_recognize
    rw [List.length_drop] at hend
    generalize p.parse = out at hparses ⊢
    cases hparses with
    | tooDeep hzero => exact hzero.elim
    | noMatch hnone => cases answer_left hmatch hnone
    | trailing hfound hmore =>
      cases answer_left hmatch hfound
      dsimp only at hmore
      omega
    | whole hfound _ hentry hnext =>
      by_cases hfirst : p.stream.position = 0
      · -- The tokens that are left are all tokens, so both trees are those of one derivation.
        rw [hfirst] at hentry hbuilds
        rw [List.drop_zero] at hbuilds
        obtain ⟨n', hbuilds', heq'⟩ := hnext.remembered_eq hentry
        rw [if_pos hfirst, heq', hbuilds.unique hbuilds']
      · rw [if_neg hfirst]
        exact hremembered (Nat.pos_of_ne_zero hfirst) Rule.root 0

/-- Whatever tree is returned, it is that of a match at the first token. -/
theorem Kept.tree_left {tree : Node} (hout : p.parse = .ok tree) :
    ∃ stop d, Recognizes tokens [.rule Rule.root] 0 (some (stop, d)) ∧ d.tree? = some tree := by
  have hne : tokens ≠ [] := by
    rintro rfl
    exact absurd hlt (Nat.not_lt_zero _)
  have hparses := h.parse hne h.position_le
  have hnext := (h.recognize Rule.root 0 h.position_le).1
  generalize p.parse = out at hparses hout
  cases hparses with
  | noMatch | trailing | tooDeep => cases hout
  | whole => exact hnext.remembered_ok hout

theorem Kept.tooDeep_left {position offset : Nat}
    (hout : p.parse = .error (.parse (.tooDeep position offset))) :
    ∃ position' offset', (rest tokens p).parse = .error (.parse (.tooDeep position' offset')) := by
  have hrest := rest_parses hlt
  generalize (rest tokens p).parse = out at hrest
  have hne (hkeep : (Discipline.nested (tokens.drop p.stream.position)).keep Rule.root 0) :
      False := by
    have hparses := h.parses_left hlt hkeep
    generalize p.parse = out at hparses hout
    cases hparses with
    | noMatch | trailing => cases hout
    | tooDeep hzero => exact hzero.elim
    | whole =>
      unfold remembered at hout
      split at hout <;> cases hout
  cases hrest with
  | noMatch hnone => exact (hne hnone.1).elim
  | trailing hmatch _ => exact (hne hmatch.1).elim
  | whole hmatch _ _ _ => exact (hne hmatch.1).elim
  | tooDeep => exact ⟨_, _, rfl⟩

end Left

/-- **A session parses the tokens that are left** as a new parser does, as far as a selector is
recognized: it finds none, or tokens behind one, where the new parser does, and meets the limit only
where the new parser does. But the tree of a selector is the one remembered for the first token.
It is the tree of the tokens that are left if the cursor stands at the first one; otherwise it is
missing or the tree of an earlier match, which starts at the first token. -/
theorem Session.parse_left (h : Session tokens p) (hlt : p.stream.position < tokens.length) :
    (∀ position offset found,
      (rest tokens p).parse = .error (.parse (.noMatch position offset found)) →
        ∃ position' offset' found',
          p.parse = .error (.parse (.noMatch position' offset' found'))) ∧
    (∀ position offset found,
      (rest tokens p).parse = .error (.parse (.trailingTokens position offset found)) →
        p.parse = .error
          (.parse (.trailingTokens (p.stream.position + position) offset found))) ∧
    (∀ tree, (rest tokens p).parse = .ok tree →
      p.parse = if p.stream.position = 0 then .ok tree else p.remembered) ∧
    (∀ position offset, p.parse = .error (.parse (.tooDeep position offset)) →
      ∃ position' offset',
        (rest tokens p).parse = .error (.parse (.tooDeep position' offset'))) ∧
    (∀ tree, p.parse = .ok tree →
      ∃ stop d, Recognizes tokens [.rule Rule.root] 0 (some (stop, d)) ∧
        d.tree? = some tree) :=
  ⟨fun _ _ _ => h.kept.noMatch_left hlt, fun _ _ _ => h.kept.trailing_left hlt,
    fun _ => h.kept.ok_left hlt, fun _ _ => h.kept.tooDeep_left hlt,
    fun _ => h.kept.tree_left hlt⟩

/-- Behind the first token nothing is remembered for it yet, so no tree is found. -/
theorem Session.parse_left_missing :
    let b : Token := ⟨.ident, "b", 2⟩
    let tokens : List Token := [⟨.ident, "a", 0⟩, b]
    let p : Parser := ⟨(TokenStream.ofList tokens).reset 1, {}⟩
    Session tokens p ∧ p.stream.position < tokens.length ∧
      (rest tokens p).parse = .ok (.leaf 0 b) ∧
      p.parse = .error (.defect (.notRecognized Rule.root 0)) := by
  intro b tokens p
  have hsession : Session tokens p := .start 1
  have hlt : p.stream.position < tokens.length := by decide
  have hspells : Spells [.rule .simple] [b] [.leaf 0 b] := .literal rfl
  have hrest : (rest tokens p).parse = .ok (.leaf 0 b) :=
    parse_of_spells (by decide) hspells.expr
  have hnone : p.remembered = .error (.defect (.notRecognized Rule.root 0)) :=
    remembered_of_unmatched fun found => by simp [p]
  refine ⟨hsession, hlt, hrest, ?_⟩
  rw [(hsession.parse_left hlt).2.2.1 _ hrest, if_neg (by decide), hnone]

/-- Behind a match at the first token, the tree of that match is taken for the tree of the tokens
that are left. -/
theorem parse_left_other :
    let a : Token := ⟨.ident, "a", 0⟩
    let b : Token := ⟨.ident, "b", 2⟩
    let p : Parser := ((Parser.ofList [a, b]).recognize Rule.root 0).2
    Session [a, b] p ∧ p.stream.position = 1 ∧ (rest [a, b] p).parse = .ok (.leaf 0 b) ∧
      p.parse = .ok (.leaf 0 a) := by
  intro a b p
  have hstart : Kept (.short [a, b]) (Parser.ofList [a, b]) := .start _ 0
  have hcall : (Discipline.short [a, b]).call (maxRuleDepth + 1 - 0) Rule.root 0 := by
    simp [Discipline.short, Rule.root, Rule.rank, maxRuleDepth]
  obtain ⟨hnext, hanswers⟩ := hstart.recognize Rule.root 0 hcall
  have hsession : Session [a, b] p := .call Rule.root 0 (.start 0)
  have ha : Spells [.rule .simple] [a] [.leaf 0 a] := .literal rfl
  have hb : Spells [.rule .simple] [b] [.leaf 0 b] := .literal rfl
  obtain ⟨m, hbuilds, hm⟩ := ha.expr.builds (show [a, b].drop 0 = [a] ++ [b] from rfl)
    (by simp [b]; decide)
  have hposition : p.stream.position = 1 ∧ p.remembered = .ok (.leaf 0 a) := by
    unfold p
    generalize (Parser.ofList [a, b]).recognize Rule.root 0 = res at hnext hanswers
    cases hanswers with
    | tooDeep hzero => exact absurd hzero.2 (Nat.not_lt_zero _)
    | unmatched hnone => cases hbuilds.finds.unique (Discipline.answer_iff.1 hnone).2
    | @matched found memo hfound hentry =>
      cases hbuilds.finds.unique (Discipline.answer_iff.1 hfound).2
      obtain ⟨n, hbuilds', heq⟩ := hnext.remembered_eq hentry
      constructor
      · simp only [hm]
        rfl
      · rw [heq, ← hbuilds.unique hbuilds']
        rfl
  have hrest : (rest [a, b] p).parse = .ok (.leaf 0 b) := by
    unfold rest
    rw [hposition.1]
    exact parse_of_spells (by decide) hb.expr
  have hlt : p.stream.position < [a, b].length := by simp [hposition.1]
  refine ⟨hsession, hposition.1, hrest, ?_⟩
  rw [hsession.kept.ok_left hlt hrest, if_neg (by simp [hposition.1]), hposition.2]

end Parser

end MessageSelector
