import Std.Data.HashMap.Lemmas
import MessageSelector.Proofs.OrderedChoice
import MessageSelector.Recognition

/-!
# The memo

Recognition with a memo answers as plain recognition does (`rule_sound`). Every entry of the memo is
the answer of plain recognition for its rule at its position (`Sound`), and recognizing keeps it so:
an answer that is read from the memo was found before, and one that is not is found from such
answers.

What else is known of a match can depend on how the rule was called. A `Discipline` says which calls
are made, and what is kept of the matches they find; it is enough to show both for one rule, given
the rules below it.
-/

namespace MessageSelector

open MessageSelector.Derivation (Derives)

namespace Recognizes

variable {tokens : List Token}

theorem rule_append {r : Rule} {symbols : List Symbol} {p middle stop index : Nat}
    {body rest : Derivation}
    (h : Recognizes tokens [.rule r] p (some (middle, .rule r index body .done)))
    (hrest : Recognizes tokens symbols middle (some (stop, rest))) :
    Recognizes tokens (.rule r :: symbols) p (some (stop, .rule r index body rest)) := by
  cases h with
  | rule ha hfail hbody hdone =>
    cases hdone
    exact .rule ha hfail hbody hrest

theorem rule_append_none {r : Rule} {symbols : List Symbol} {p middle : Nat} {d : Derivation}
    (h : Recognizes tokens [.rule r] p (some (middle, d)))
    (hrest : Recognizes tokens symbols middle none) :
    Recognizes tokens (.rule r :: symbols) p none := by
  cases h with
  | rule ha hfail hbody hdone =>
    cases hdone
    exact .ruleThen ha hfail hbody hrest

/-- Where a rule does not match, no symbols behind it help. -/
theorem rule_none {r : Rule} {p : Nat} (h : Recognizes tokens [.rule r] p none)
    (symbols : List Symbol) : Recognizes tokens (.rule r :: symbols) p none := by
  cases h with
  | ruleThen _ _ _ hnil => cases hnil
  | failure hall => exact .failure hall

end Recognizes

/-! ## Disciplines -/

/-- An alternative is tried at a position where none of those before it matches. -/
structure Rule.Tries (tokens : List Token) (r : Rule) (p index : Nat) (a : Alternative) :
    Prop where
  alternative : r.alternatives[index]? = some a
  fails : ∀ i, i < index → ∀ b : Alternative, r.alternatives[i]? = some b →
    Recognizes tokens b.symbols p none

/-- No alternative is tried behind the one that matches. -/
theorem Rule.Tries.le_of_match {tokens : List Token} {r : Rule} {p index index' : Nat}
    {a a' : Alternative} {o : Nat × Derivation} (h : r.Tries tokens p index a)
    (ha' : r.alternatives[index']? = some a')
    (hmatch : Recognizes tokens a'.symbols p (some o)) : index ≤ index' := by
  rw [← Nat.not_lt]
  intro hlt
  cases (h.fails index' hlt a' ha').unique hmatch

/-- What holds of the alternatives in front of an index, and of the one at it, holds of those in
front of the next index. -/
theorem Rule.before_succ {r : Rule} {index : Nat} {holds : Alternative → Prop}
    (hbefore : ∀ i, i < index → ∀ b : Alternative, r.alternatives[i]? = some b → holds b)
    (h : ∀ a, r.alternatives[index]? = some a → holds a) :
    ∀ i, i < index + 1 → ∀ b : Alternative, r.alternatives[i]? = some b → holds b := by
  intro i hi b hb
  rcases Nat.lt_succ_iff_lt_or_eq.1 hi with hlt | rfl
  · exact hbefore i hlt b hb
  · exact h b hb

/-- The calls that matching symbols from a position on makes are all allowed. -/
def Admits (tokens : List Token) (call : Rule → Nat → Prop) : List Symbol → Nat → Prop
  | [], _ => True
  | .token kind :: symbols, p =>
    ∀ t, tokens[p]? = some t → t.kind = kind → Admits tokens call symbols (p + 1)
  | .rule r :: symbols, p =>
    call r p ∧
      ∀ stop d, Recognizes tokens [.rule r] p (some (stop, d)) → Admits tokens call symbols stop

theorem Admits.mono {tokens : List Token} {call call' : Rule → Nat → Prop} {symbols : List Symbol}
    {p : Nat} (h : Admits tokens call symbols p) (hcall : ∀ r q, call r q → call' r q) :
    Admits tokens call' symbols p := by
  induction symbols generalizing p with
  | nil => trivial
  | cons x symbols ih =>
    cases x with
    | token kind => exact fun t ht hk => ih (h t ht hk)
    | rule r => exact ⟨hcall r p h.1, fun stop d hd => ih (h.2 stop d hd)⟩

/-- Every call is allowed where every one from the position on is. -/
theorem Admits.of_forall {tokens : List Token} {call : Rule → Nat → Prop} {symbols : List Symbol}
    {p : Nat} (hp : p ≤ tokens.length)
    (h : ∀ r q, p ≤ q → q ≤ tokens.length → call r q) : Admits tokens call symbols p := by
  induction symbols generalizing p with
  | nil => trivial
  | cons x symbols ih =>
    cases x with
    | token kind =>
      intro t ht _
      have hlt := (List.getElem?_eq_some_iff.1 ht).1
      exact ih (by omega) fun r q hpq => h r q (by omega)
    | rule r =>
      refine ⟨h r p (Nat.le_refl p) hp, fun stop d hd => ih (hd.stop_le hp) fun s q hpq => ?_⟩
      have hstop := hd.sound.2.2
      exact h s q (by omega)

/-- Which calls are made, given how many rules may still nest, and what is kept of those that are
answered. -/
structure Discipline (tokens : List Token) where
  call : Nat → Rule → Nat → Prop
  keep : Rule → Nat → Prop
  admits : ∀ {room : Nat} {r : Rule} {p index : Nat} {a : Alternative},
    call (room + 1) r p → r.Tries tokens p index a → Admits tokens (call room) a.symbols p
  keeps : ∀ {room : Nat} {r : Rule} {p : Nat}, call (room + 1) r p →
    (∀ (index : Nat) (a : Alternative), r.Tries tokens p index a →
      Admits tokens (fun s q => call room s q ∧ keep s q) a.symbols p) → keep r p

namespace Discipline

variable {tokens : List Token} (D : Discipline tokens)

/-- The answer of plain recognition, and what is kept of the call. -/
def Answer (r : Rule) (p : Nat) : Option Match → Prop
  | none => D.keep r p ∧ Recognizes tokens [.rule r] p none
  | some m => D.keep r p ∧ ∃ body,
    Recognizes tokens [.rule r] p (some (m.stop, .rule r m.alternative body .done))

/-- The calls that matching symbols makes are allowed, and what is to be kept of them is. -/
def Kept (call : Rule → Nat → Prop) : List Symbol → Nat → Prop :=
  Admits tokens fun r p => call r p ∧ D.keep r p

/-- Every entry of a memo is an answer. -/
def Sound (memo : Memo) : Prop :=
  ∀ r p o, memo.entries[(r, p)]? = some o → D.Answer r p o

theorem sound_empty : D.Sound {} := by
  intro r p o h
  simp at h

theorem Sound.reach {memo : Memo} {D : Discipline tokens} (h : D.Sound memo) (p : Nat) :
    D.Sound (memo.reach p) :=
  h

theorem Sound.record {memo : Memo} {D : Discipline tokens} (h : D.Sound memo) {r : Rule} {p : Nat}
    {o : Option Match} (ho : D.Answer r p o) : D.Sound (memo.record r p o) := by
  intro r' p' o' hlookup
  rw [Memo.record, Std.HashMap.getElem?_insert] at hlookup
  split at hlookup
  · next heq =>
    cases eq_of_beq heq
    cases hlookup
    exact ho
  · exact h r' p' o' hlookup

/-! ## Recognition keeps the memo sound -/

section Engine

variable {s : TokenStream} {D : Discipline s.tokens.toList}

theorem get?_eq (p : Nat) : s.get? p = s.tokens.toList[p]? := by
  rw [Array.getElem?_toList, TokenStream.get?]

/-- The outcome of a call: an answer, unless some call was made with no room left. -/
def Outcome (D : Discipline s.tokens.toList) (r : Rule) (p : Nat) :
    Except ParseError (Option Match) → Prop
  | .error e => ∃ r q, D.call 0 r q ∧ e = .tooDeep q (s.offsetAt q)
  | .ok o => D.Answer r p o

/-- The outcome of matching symbols, whose calls are those allowed by `call`. -/
def SymbolsOutcome (D : Discipline s.tokens.toList) (call : Rule → Nat → Prop)
    (symbols : List Symbol) (p : Nat) : Except ParseError (Option Nat) → Prop
  | .error e => ∃ r q, D.call 0 r q ∧ e = .tooDeep q (s.offsetAt q)
  | .ok none => D.Kept call symbols p ∧ Recognizes s.tokens.toList symbols p none
  | .ok (some stop) => D.Kept call symbols p ∧
      ∃ d, Recognizes s.tokens.toList symbols p (some (stop, d))

/-- Sub-rules that keep the memo sound, and answer where they may be called. -/
def SoundSub (D : Discipline s.tokens.toList) (call : Rule → Nat → Prop)
    (sub : Rule → Nat → Recognition.Attempt Match) : Prop :=
  ∀ r p memo, call r p → D.Sound memo → D.Sound (sub r p memo).2 ∧ D.Outcome r p (sub r p memo).1

theorem symbols_sound {call : Rule → Nat → Prop} {sub : Rule → Nat → Recognition.Attempt Match}
    (hsub : SoundSub D call sub) {symbols : List Symbol} {p : Nat} {memo : Memo}
    (hcalls : Admits s.tokens.toList call symbols p) (hmemo : D.Sound memo) :
    D.Sound (Recognition.symbols s sub symbols p memo).2 ∧
      D.SymbolsOutcome call symbols p (Recognition.symbols s sub symbols p memo).1 := by
  induction symbols generalizing p memo with
  | nil => exact ⟨hmemo, trivial, .done, .done p⟩
  | cons x symbols ih =>
    cases x with
    | token kind =>
      -- A token that does not match makes no calls.
      have hmismatch (h : ∀ t, s.tokens.toList[p]? = some t → t.kind ≠ kind) :
          D.Kept call (.token kind :: symbols) p ∧
            Recognizes s.tokens.toList (.token kind :: symbols) p none :=
        ⟨fun t ht hk => absurd hk (h t ht), .mismatch h⟩
      rw [Recognition.symbols, get?_eq]
      cases ht : s.tokens.toList[p]? with
      | none =>
        refine ⟨hmemo.reach p, hmismatch fun t ht' => ?_⟩
        rw [ht] at ht'
        cases ht'
      | some t =>
        by_cases hk : t.kind = kind
        · obtain ⟨hsound, hout⟩ := ih (hcalls t ht hk) hmemo
          rcases hres : Recognition.symbols s sub symbols (p + 1) memo with ⟨out, memo'⟩
          rw [hres] at hsound hout
          simp only [hk, ↓reduceIte]
          cases out with
          | error e => exact ⟨hsound, hout⟩
          | ok o =>
            cases o with
            | none => exact ⟨hsound, fun _ _ _ => hout.1, .tokenThen ht hk hout.2⟩
            | some stop =>
              obtain ⟨hkept, d, hd⟩ := hout
              exact ⟨hsound, fun _ _ _ => hkept, .token t d, .token ht hk hd⟩
        · simp only [hk, ↓reduceIte]
          refine ⟨hmemo.reach p, hmismatch fun t' ht' => ?_⟩
          rw [ht] at ht'
          cases ht'
          exact hk
    | rule r =>
      obtain ⟨hcall, hcalls⟩ := hcalls
      obtain ⟨hsound, hout⟩ := hsub r p memo hcall hmemo
      rw [Recognition.symbols]
      rcases hres : sub r p memo with ⟨out, memo'⟩
      rw [hres] at hsound hout
      cases out with
      | error e => exact ⟨hsound, hout⟩
      | ok o =>
        cases o with
        | none =>
          obtain ⟨hkeep, hno⟩ := hout
          refine ⟨hsound, ⟨⟨hcall, hkeep⟩, fun stop d hd => ?_⟩, hno.rule_none symbols⟩
          cases hno.unique hd
        | some found =>
          obtain ⟨hkeep, body, hbody⟩ := hout
          -- The symbols behind the rule start where its match stops.
          obtain ⟨hsound', hout⟩ := ih (hcalls _ _ hbody) hsound
          have hkept (h : D.Kept call symbols found.stop) : D.Kept call (.rule r :: symbols) p := by
            refine ⟨⟨hcall, hkeep⟩, fun stop d hd => ?_⟩
            cases hbody.unique hd
            exact h
          rcases hres' : Recognition.symbols s sub symbols found.stop memo' with ⟨out, memo''⟩
          rw [hres'] at hsound' hout
          simp only [hres']
          cases out with
          | error e => exact ⟨hsound', hout⟩
          | ok o =>
            cases o with
            | none => exact ⟨hsound', hkept hout.1, hbody.rule_append_none hout.2⟩
            | some stop =>
              obtain ⟨hrest, d, hd⟩ := hout
              exact ⟨hsound', hkept hrest, .rule r found.alternative body d, hbody.rule_append hd⟩

theorem alternatives_sound {room : Nat} {r : Rule} {p : Nat}
    {sub : Rule → Nat → Recognition.Attempt Match} (hcall : D.call (room + 1) r p)
    (hsub : SoundSub D (D.call room) sub) {alternatives : List Alternative} {index : Nat}
    {memo : Memo} (hdrop : r.alternatives.drop index = alternatives)
    (hbefore : ∀ i, i < index → ∀ b : Alternative, r.alternatives[i]? = some b →
      D.Kept (D.call room) b.symbols p ∧ Recognizes s.tokens.toList b.symbols p none)
    (hmemo : D.Sound memo) :
    D.Sound (Recognition.alternatives s sub p alternatives index memo).2 ∧
      D.Outcome r p (Recognition.alternatives s sub p alternatives index memo).1 := by
  induction alternatives generalizing index memo with
  | nil =>
    have hall (i : Nat) (b : Alternative) (hb : r.alternatives[i]? = some b) := by
      have hlen : r.alternatives.length ≤ index := by simpa using hdrop
      exact hbefore i (Nat.lt_of_lt_of_le (List.getElem?_eq_some_iff.1 hb).1 hlen) b hb
    exact ⟨hmemo, D.keeps hcall fun i b htries => (hall i b htries.alternative).1,
      .failure fun i b hb => (hall i b hb).2⟩
  | cons a alternatives ih =>
    obtain ⟨ha, hdrop'⟩ := Recognizes.getElem?_of_drop hdrop
    have htries : r.Tries s.tokens.toList p index a :=
      ⟨ha, fun i hi b hb => (hbefore i hi b hb).2⟩
    obtain ⟨hsound, hout⟩ := symbols_sound hsub (D.admits hcall htries) hmemo
    rw [Recognition.alternatives]
    rcases hres : Recognition.symbols s sub a.symbols p memo with ⟨out, memo'⟩
    rw [hres] at hsound hout
    cases out with
    | error e => exact ⟨hsound, hout⟩
    | ok o =>
      cases o with
      | none =>
        -- One more alternative has failed, and an answer of plain recognition tells that all before
        -- the chosen one have.
        refine ih hdrop' (Rule.before_succ hbefore fun b hb => ?_) hsound
        cases ha.symm.trans hb
        exact hout
      | some stop =>
        obtain ⟨hkept, body, hbody⟩ := hout
        refine ⟨hsound, D.keeps hcall fun i b hb => ?_, body,
          .rule ha htries.fails hbody (.done _)⟩
        rcases Nat.lt_or_eq_of_le (hb.le_of_match ha hbody) with hlt | rfl
        · exact (hbefore i hlt b hb.alternative).1
        · cases ha.symm.trans hb.alternative
          exact hkept

/-- **Recognition with a memo** keeps the memo sound, and answers as plain recognition does unless
the rules nest too deeply. -/
theorem rule_sound {room : Nat} {r : Rule} {p : Nat} {memo : Memo} (hcall : D.call room r p)
    (hmemo : D.Sound memo) :
    D.Sound (Recognition.rule s room r p memo).2 ∧
      D.Outcome r p (Recognition.rule s room r p memo).1 := by
  induction room generalizing r p memo with
  | zero => exact ⟨hmemo, r, p, hcall, rfl⟩
  | succ room ih =>
    rw [Recognition.rule]
    split
    · next found hlookup => exact ⟨hmemo, hmemo r p found hlookup⟩
    · -- What is not in the memo is found by calls with less room.
      have hsub : SoundSub D (D.call room) (Recognition.rule s room) :=
        fun r p memo hcall hmemo => ih hcall hmemo
      obtain ⟨hsound, hout⟩ := alternatives_sound hcall hsub List.drop_zero
        (fun i hi => absurd hi (Nat.not_lt_zero i)) hmemo
      rcases hres : Recognition.alternatives s (Recognition.rule s room) p r.alternatives 0 memo
        with ⟨out, memo'⟩
      rw [hres] at hsound hout
      cases out with
      | error e => exact ⟨hsound, hout⟩
      | ok o => exact ⟨hsound.record hout, hout⟩

/-- What was just found for a rule is in the memo. -/
theorem entry_of_ok {room : Nat} {r : Rule} {p : Nat} {memo : Memo} {o : Option Match}
    (h : (Recognition.rule s room r p memo).1 = .ok o) :
    (Recognition.rule s room r p memo).2.entries[(r, p)]? = some o := by
  cases room with
  | zero => cases h
  | succ room =>
    rw [Recognition.rule] at h ⊢
    split at h
    · next found hlookup =>
      cases h
      simpa using hlookup
    · next hlookup =>
      rcases hres : Recognition.alternatives s (Recognition.rule s room) p r.alternatives 0 memo
        with ⟨out, memo'⟩
      rw [hres] at h
      cases out with
      | error e => cases h
      | ok found =>
        cases h
        simp [Memo.record]

end Engine

/-- No discipline: every call is allowed, and nothing is kept. -/
def free (tokens : List Token) : Discipline tokens where
  call _ _ p := p ≤ tokens.length
  keep _ _ := True
  admits hp _ := Admits.of_forall hp fun _ _ _ hq => hq
  keeps _ _ := trivial

end Discipline

end MessageSelector
