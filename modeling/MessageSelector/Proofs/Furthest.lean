import MessageSelector.Proofs.Sessions

/-!
# The furthest mismatch

Recognition notes the furthest position whose token was not the one asked for, whatever alternative
asked for it (`Stumbles`). A memo changes neither what is asked for nor where: an entry answers for
a call whose mismatches were noted when the entry was made (`Memo.Noted`). So the position that is
noted in the end is the greatest one at which plain recognition meets a mismatch
(`Kept.recognize_notes`, `parse_noMatch`).
-/

namespace MessageSelector

open Recognition (Attempt)

/-- On the way, matching symbols from a position on asks for a token that does not stand at a
position. -/
inductive Stumbles (tokens : List Token) : List Symbol → Nat → Nat → Prop
  | here {kind : Token.Kind} {symbols : List Symbol} {p : Nat} :
    (∀ t, tokens[p]? = some t → t.kind ≠ kind) → Stumbles tokens (.token kind :: symbols) p p
  | token {kind : Token.Kind} {symbols : List Symbol} {p q : Nat} {t : Token} :
    tokens[p]? = some t → t.kind = kind → Stumbles tokens symbols (p + 1) q →
      Stumbles tokens (.token kind :: symbols) p q
  | inside {r : Rule} {symbols : List Symbol} {p q index : Nat} {a : Alternative} :
    r.Tries tokens p index a → Stumbles tokens a.symbols p q →
      Stumbles tokens (.rule r :: symbols) p q
  | behind {r : Rule} {symbols : List Symbol} {p stop q : Nat} {d : Derivation} :
    Recognizes tokens [.rule r] p (some (stop, d)) → Stumbles tokens symbols stop q →
      Stumbles tokens (.rule r :: symbols) p q

/-- The position is the greatest one of a mismatch. -/
def Stumbles.Furthest (tokens : List Token) (symbols : List Symbol) (p q : Nat) : Prop :=
  Stumbles tokens symbols p q ∧ ∀ q', Stumbles tokens symbols p q' → q' ≤ q

namespace Stumbles

variable {tokens : List Token} {symbols : List Symbol} {r : Rule} {p q : Nat}

@[simp]
theorem not_nil : ¬ Stumbles tokens [] p q :=
  nofun

theorem mismatch_iff {kind : Token.Kind} (h : ∀ t, tokens[p]? = some t → t.kind ≠ kind) :
    Stumbles tokens (.token kind :: symbols) p q ↔ q = p := by
  constructor
  · intro hq
    cases hq with
    | here => rfl
    | token ht hk _ => exact absurd hk (h _ ht)
  · rintro rfl
    exact .here h

theorem token_iff {kind : Token.Kind} {t : Token} (ht : tokens[p]? = some t) (hk : t.kind = kind) :
    Stumbles tokens (.token kind :: symbols) p q ↔ Stumbles tokens symbols (p + 1) q := by
  constructor
  · intro hq
    cases hq with
    | here hne => exact absurd hk (hne t ht)
    | token _ _ hrest => exact hrest
  · exact .token ht hk

/-- A rule meets the mismatches of the alternatives that are tried. -/
theorem rule_iff : Stumbles tokens [.rule r] p q ↔
    ∃ index a, r.Tries tokens p index a ∧ Stumbles tokens a.symbols p q := by
  constructor
  · intro hq
    cases hq with
    | inside htries hbody => exact ⟨_, _, htries, hbody⟩
    | behind _ hrest => cases hrest
  · rintro ⟨index, a, htries, hbody⟩
    exact .inside htries hbody

theorem of_first (h : Stumbles tokens [.rule r] p q) (symbols : List Symbol) :
    Stumbles tokens (.rule r :: symbols) p q := by
  obtain ⟨index, a, htries, hbody⟩ := rule_iff.1 h
  exact .inside htries hbody

/-- Behind a rule that does not match nothing is asked for. -/
theorem unmatched_iff (h : Recognizes tokens [.rule r] p none) :
    Stumbles tokens (.rule r :: symbols) p q ↔ Stumbles tokens [.rule r] p q := by
  constructor
  · intro hq
    cases hq with
    | inside htries hbody => exact .inside htries hbody
    | behind hmatch _ => cases hmatch.unique h
  · intro hq
    exact hq.of_first symbols

theorem matched_iff {stop : Nat} {d : Derivation}
    (h : Recognizes tokens [.rule r] p (some (stop, d))) :
    Stumbles tokens (.rule r :: symbols) p q ↔
      Stumbles tokens [.rule r] p q ∨ Stumbles tokens symbols stop q := by
  constructor
  · intro hq
    cases hq with
    | inside htries hbody => exact .inl (.inside htries hbody)
    | behind hmatch hrest =>
      cases hmatch.unique h
      exact .inr hrest
  · rintro (hq | hq)
    · exact hq.of_first symbols
    · exact .behind h hq

end Stumbles

/-- An alternative that is tried, from the index on, meets a mismatch at `q`. -/
def Rule.StumblesFrom (r : Rule) (tokens : List Token) (p index q : Nat) : Prop :=
  ∃ i a, index ≤ i ∧ r.Tries tokens p i a ∧ Stumbles tokens a.symbols p q

section

variable {tokens : List Token} {r : Rule} {p index q : Nat} {a : Alternative}

theorem Rule.Tries.stumblesFrom_iff (h : r.Tries tokens p index a) :
    r.StumblesFrom tokens p index q ↔
      Stumbles tokens a.symbols p q ∨ r.StumblesFrom tokens p (index + 1) q := by
  constructor
  · rintro ⟨i, b, hi, hb, hq⟩
    rcases Nat.eq_or_lt_of_le hi with rfl | hlt
    · cases h.alternative.symm.trans hb.alternative
      exact .inl hq
    · exact .inr ⟨i, b, hlt, hb, hq⟩
  · rintro (hq | ⟨i, b, hi, hb, hq⟩)
    · exact ⟨index, a, Nat.le_refl index, h, hq⟩
    · exact ⟨i, b, Nat.le_of_succ_le hi, hb, hq⟩

theorem Rule.Tries.stumblesFrom_iff_of_match {o : Nat × Derivation} (h : r.Tries tokens p index a)
    (hmatch : Recognizes tokens a.symbols p (some o)) :
    r.StumblesFrom tokens p index q ↔ Stumbles tokens a.symbols p q := by
  rw [h.stumblesFrom_iff, or_iff_left]
  rintro ⟨i, b, hi, hb, -⟩
  exact Nat.not_le_of_lt hi (hb.le_of_match h.alternative hmatch)

end

/-! ## What is noted -/

/-- The mismatches behind every entry of a memo have been noted. -/
def Memo.Noted (tokens : List Token) (memo : Memo) : Prop :=
  ∀ r p o, memo.entries[(r, p)]? = some o → ∀ q, Stumbles tokens [.rule r] p q → q ≤ memo.furthest

/-- The second memo has noted what the first one has and the given mismatches, and no other. -/
structure Memo.Notes (tokens : List Token) (mismatch : Nat → Prop) (memo memo' : Memo) : Prop where
  noted : memo'.Noted tokens
  grows : memo.furthest ≤ memo'.furthest
  covers : ∀ q, mismatch q → q ≤ memo'.furthest
  reached : memo'.furthest = memo.furthest ∨ mismatch memo'.furthest

namespace Memo

variable {tokens : List Token} {mismatch mismatch' both : Nat → Prop} {memo memo' memo'' : Memo}

theorem noted_empty : Noted tokens {} := by
  intro r p o h
  simp at h

/-- An entry may be made when the mismatches behind it have been noted. -/
theorem Noted.record (h : memo.Noted tokens) {r : Rule} {p : Nat} {o : Option Match}
    (hcovers : ∀ q, Stumbles tokens [.rule r] p q → q ≤ memo.furthest) :
    (memo.record r p o).Noted tokens := by
  intro r' p' o' hlookup
  rw [Memo.record, Std.HashMap.getElem?_insert] at hlookup
  split at hlookup
  · next heq =>
    cases eq_of_beq heq
    exact hcovers
  · exact h r' p' o' hlookup

namespace Notes

theorem refl (h : memo.Noted tokens) (hcovers : ∀ q, mismatch q → q ≤ memo.furthest) :
    Notes tokens mismatch memo memo :=
  ⟨h, Nat.le_refl _, hcovers, .inl rfl⟩

theorem reach (h : memo.Noted tokens) (p : Nat) :
    Notes tokens (· = p) memo (memo.reach p) := by
  refine ⟨?_, Nat.le_max_left _ _, ?_, ?_⟩
  · intro r q o hlookup q' hq'
    exact Nat.le_trans (h r q o hlookup q' hq') (Nat.le_max_left _ _)
  · rintro q rfl
    exact Nat.le_max_right _ _
  · unfold Memo.reach
    dsimp only
    omega

theorem trans (h : Notes tokens mismatch memo memo') (h' : Notes tokens mismatch' memo' memo'')
    (hboth : ∀ q, both q ↔ mismatch q ∨ mismatch' q) : Notes tokens both memo memo'' := by
  refine ⟨h'.noted, Nat.le_trans h.grows h'.grows, ?_, ?_⟩
  · intro q hq
    rcases (hboth q).1 hq with hfirst | hsecond
    · exact Nat.le_trans (h.covers q hfirst) h'.grows
    · exact h'.covers q hsecond
  · rcases h'.reached with heq | hsecond
    · rw [heq, hboth]
      exact h.reached.imp_right .inl
    · exact .inr ((hboth _).2 (.inr hsecond))

theorem congr (h : Notes tokens mismatch memo memo') (hiff : ∀ q, both q ↔ mismatch q) :
    Notes tokens both memo memo' := by
  refine ⟨h.noted, h.grows, fun q hq => h.covers q ((hiff q).1 hq), ?_⟩
  exact h.reached.imp_right (hiff _).2

theorem record {r : Rule} {p : Nat} (h : Notes tokens (Stumbles tokens [.rule r] p) memo memo')
    (o : Option Match) :
    Notes tokens (Stumbles tokens [.rule r] p) memo (memo'.record r p o) :=
  ⟨h.noted.record h.covers, h.grows, h.covers, h.reached⟩

end Notes

end Memo

/-! ## Recognition notes what plain recognition meets -/

namespace Discipline

variable {s : TokenStream}

/-- Sub-rules that note their mismatches when they answer. -/
def NotingSub (s : TokenStream) (sub : Rule → Nat → Attempt Match) : Prop :=
  ∀ r p memo o memo', p ≤ s.tokens.toList.length → (free s.tokens.toList).Sound memo →
    memo.Noted s.tokens.toList → sub r p memo = (.ok o, memo') →
      memo.Notes s.tokens.toList (Stumbles s.tokens.toList [.rule r] p) memo'

section Sub

variable {sub : Rule → Nat → Attempt Match}
  (hsub : SoundSub (free s.tokens.toList) (fun _ q => q ≤ s.tokens.toList.length) sub)
  (hnoting : NotingSub s sub)

include hsub hnoting

theorem symbols_notes {symbols : List Symbol} {p : Nat} {memo memo' : Memo}
    {o : Option Nat} (hp : p ≤ s.tokens.toList.length)
    (hmemo : (free s.tokens.toList).Sound memo) (hnoted : memo.Noted s.tokens.toList)
    (h : Recognition.symbols s sub symbols p memo = (.ok o, memo')) :
    memo.Notes s.tokens.toList (Stumbles s.tokens.toList symbols p) memo' := by
  induction symbols generalizing p memo memo' o with
  | nil =>
    cases h
    exact .refl hnoted fun q hq => absurd hq Stumbles.not_nil
  | cons x symbols ih =>
    cases x with
    | token kind =>
      rw [Recognition.symbols, get?_eq] at h
      cases ht : s.tokens.toList[p]? with
      | none =>
        rw [ht] at h
        cases h
        have hne : ∀ t, s.tokens.toList[p]? = some t → t.kind ≠ kind := by
          intro t ht'
          cases ht.symm.trans ht'
        exact (Memo.Notes.reach hnoted p).congr fun q => Stumbles.mismatch_iff hne
      | some t =>
        have hlt := (List.getElem?_eq_some_iff.1 ht).1
        rw [ht] at h
        by_cases hk : t.kind = kind
        · simp only [hk, ↓reduceIte] at h
          exact (ih hlt hmemo hnoted h).congr fun q => Stumbles.token_iff ht hk
        · simp only [hk, ↓reduceIte] at h
          cases h
          have hne : ∀ t, s.tokens.toList[p]? = some t → t.kind ≠ kind := by
            intro t' ht'
            cases ht.symm.trans ht'
            exact hk
          exact (Memo.Notes.reach hnoted p).congr fun q => Stumbles.mismatch_iff hne
    | rule r =>
      obtain ⟨hsound, hout⟩ := hsub r p memo hp hmemo
      have hfirst := hnoting r p memo
      rw [Recognition.symbols] at h
      rcases hres : sub r p memo with ⟨out, memo₁⟩
      rw [hres] at h hsound hout hfirst
      rcases out with e | _ | found
      · cases h
      · cases h
        exact (hfirst none _ hp hmemo hnoted rfl).congr fun q => Stumbles.unmatched_iff hout.2
      · obtain ⟨-, body, hbody⟩ := hout
        have hnotes := hfirst (some found) _ hp hmemo hnoted rfl
        have hrest := ih (hbody.stop_le hp) hsound hnotes.noted h
        exact hnotes.trans hrest fun q => Stumbles.matched_iff hbody

/-- The mismatches of the alternatives that are tried from an index on are noted. -/
theorem alternatives_notes {r : Rule} {p : Nat} {alternatives : List Alternative} {index : Nat}
    {memo memo' : Memo} {o : Option Match} (hp : p ≤ s.tokens.toList.length)
    (hdrop : r.alternatives.drop index = alternatives)
    (hbefore : ∀ i, i < index → ∀ b : Alternative, r.alternatives[i]? = some b →
      Recognizes s.tokens.toList b.symbols p none)
    (hmemo : (free s.tokens.toList).Sound memo) (hnoted : memo.Noted s.tokens.toList)
    (h : Recognition.alternatives s sub p alternatives index memo = (.ok o, memo')) :
    memo.Notes s.tokens.toList (r.StumblesFrom s.tokens.toList p index) memo' := by
  induction alternatives generalizing index memo with
  | nil =>
    cases h
    refine .refl hnoted ?_
    rintro q ⟨i, a, hi, htries, -⟩
    have hlt := (List.getElem?_eq_some_iff.1 htries.alternative).1
    have hlen : r.alternatives.length ≤ index := by simpa using hdrop
    omega
  | cons a alternatives ih =>
    obtain ⟨ha, hdrop'⟩ := Recognizes.getElem?_of_drop hdrop
    have htries : r.Tries s.tokens.toList p index a := ⟨ha, hbefore⟩
    have hadmits : Admits s.tokens.toList (fun _ q => q ≤ s.tokens.toList.length) a.symbols p :=
      Admits.of_forall hp fun _ _ _ hq => hq
    obtain ⟨hsound, hout⟩ := symbols_sound hsub hadmits hmemo
    rw [Recognition.alternatives] at h
    rcases hres : Recognition.symbols s sub a.symbols p memo with ⟨out, memo₁⟩
    rw [hres] at h hsound hout
    rcases out with e | _ | stop
    · cases h
    · -- The mismatches of this alternative come before those of the next ones.
      have hnotes := symbols_notes hsub hnoting hp hmemo hnoted hres
      have hbefore' := Rule.before_succ hbefore fun b hb => by
        cases ha.symm.trans hb
        exact hout.2
      exact hnotes.trans (ih hdrop' hbefore' hsound hnotes.noted h)
        fun q => htries.stumblesFrom_iff
    · -- Behind the alternative that matches none is tried.
      have hnotes := symbols_notes hsub hnoting hp hmemo hnoted hres
      obtain ⟨-, body, hbody⟩ := hout
      cases h
      exact hnotes.congr fun q => htries.stumblesFrom_iff_of_match hbody

end Sub

/-- Recognizing a rule notes its mismatches. -/
theorem rule_notes (room : Nat) : NotingSub s (Recognition.rule s room) := by
  induction room with
  | zero =>
    intro r p memo o memo' _ _ _ h
    cases h
  | succ room ih =>
    intro r p memo o memo' hp hmemo hnoted h
    rw [Recognition.rule] at h
    split at h
    · next hlookup =>
      cases h
      exact .refl hnoted (hnoted r p _ hlookup)
    · have hsub : SoundSub (free s.tokens.toList) (fun _ q => q ≤ s.tokens.toList.length)
          (Recognition.rule s room) :=
        fun r p memo hp hmemo => rule_sound hp hmemo
      rcases hres : Recognition.alternatives s (Recognition.rule s room) p r.alternatives 0 memo
        with ⟨out, memo₁⟩
      rw [hres] at h
      cases out with
      | error e => cases h
      | ok o =>
        cases h
        have hnotes := alternatives_notes hsub ih hp List.drop_zero
          (fun i hi => absurd hi (Nat.not_lt_zero i)) hmemo hnoted hres
        refine (hnotes.congr fun q => ?_).record o
        rw [Stumbles.rule_iff]
        simp only [Rule.StumblesFrom, Nat.zero_le, true_and]

end Discipline

/-! ## Where parsing fails -/

theorem Rule.Tries.first {tokens : List Token} {r : Rule} {p : Nat} {a : Alternative}
    (ha : r.alternatives[0]? = some a) : r.Tries tokens p 0 a :=
  ⟨ha, fun i hi => absurd hi (Nat.not_lt_zero i)⟩

/-- What does not match meets a mismatch. -/
theorem Recognizes.stumbles {tokens : List Token} {symbols : List Symbol} {p : Nat}
    (h : Recognizes tokens symbols p none) : ∃ q, p ≤ q ∧ Stumbles tokens symbols p q := by
  generalize ho : (none : Option (Nat × Derivation)) = o at h
  induction h with
  | done | token | rule => cases ho
  | mismatch hne => exact ⟨_, Nat.le_refl _, .here hne⟩
  | tokenThen ht hk _ ih =>
    obtain ⟨q, hq, hstumbles⟩ := ih rfl
    exact ⟨q, by omega, .token ht hk hstumbles⟩
  | ruleThen ha hfail hbody hrest _ _ ih =>
    obtain ⟨q, hq, hstumbles⟩ := ih rfl
    have hstop := hbody.sound.2.2
    exact ⟨q, by omega, .behind (.rule ha hfail hbody (.done _)) hstumbles⟩
  | @failure r symbols p hall ih =>
    obtain ⟨a, ha⟩ : ∃ a, r.alternatives[0]? = some a := by
      cases r <;> exact ⟨_, rfl⟩
    obtain ⟨q, hq, hstumbles⟩ := ih 0 a ha rfl
    exact ⟨q, hq, .inside (.first ha) hstumbles⟩

namespace Parser

variable {tokens : List Token} {p : Parser}

/-- A call that is answered notes its mismatches. -/
theorem Kept.recognize_notes (h : Kept (.free tokens) p) (hnoted : p.memo.Noted tokens)
    {rule : Rule} {depth : Nat} {b : Bool} {p' : Parser}
    (hcall : p.recognize rule depth = (.ok b, p')) :
    p.memo.Notes tokens (Stumbles tokens [.rule rule] p.stream.position) p'.memo := by
  obtain ⟨rfl, hposition, hmemo, -⟩ := h
  have hnotes := @Discipline.rule_notes p.stream (maxRuleDepth + 1 - depth) rule p.stream.position
    p.memo
  unfold Parser.recognize at hcall
  rcases hres : Recognition.rule p.stream (maxRuleDepth + 1 - depth) rule p.stream.position p.memo
    with ⟨out, memo⟩
  rw [hres] at hcall
  rcases out with e | _ | found <;> cases hcall <;>
    exact hnotes _ _ hposition hmemo hnoted hres

/-- Where parsing finds no selector, it says where the furthest mismatch is. -/
theorem parse_noMatch {position offset : Nat} {found : String}
    (h : (Parser.ofList tokens).parse = .error (.parse (.noMatch position offset found))) :
    Recognizes tokens [.rule Rule.root] 0 none ∧
      Stumbles.Furthest tokens [.rule Rule.root] 0 position := by
  have hkept : Kept (.free tokens) (Parser.ofList tokens) := .start (.free tokens) 0
  have hanswers := (hkept.recognize Rule.root 0 (Nat.zero_le _)).2
  unfold Parser.parse at h
  split at h
  · cases h
  rcases hcall : (Parser.ofList tokens).recognize Rule.root 0 with ⟨out, p'⟩
  rw [hcall] at h hanswers
  cases hanswers with
  | tooDeep => cases h
  | matched =>
    dsimp only at h
    split at h
    · cases h
    · split at h <;> cases h
  | unmatched hnone =>
    cases h
    have hnotes := hkept.recognize_notes Memo.noted_empty hcall
    obtain ⟨q, -, hq⟩ := hnone.2.stumbles
    have hle := hnotes.covers q hq
    refine ⟨hnone.2, ?_, hnotes.covers⟩
    rcases hnotes.reached with hzero | hreached
    · -- Nothing was noted before, so the mismatch is at the first token.
      have hstart : (Parser.ofList tokens).memo.furthest = 0 := rfl
      rw [hzero, hstart] at hle ⊢
      rwa [Nat.le_zero.1 hle] at hq
    · exact hreached

end Parser

end MessageSelector
