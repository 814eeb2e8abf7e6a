import MessageSelector.Construction
import MessageSelector.Proofs.Formed
import MessageSelector.Proofs.Packrat

/-!
# The second pass

Recognition leaves a memo that is closed (`Memo.Closed`): with a match it remembers something for
every rule that the chosen alternative calls. Since every entry is the answer of plain recognition,
the second pass follows the one derivation there is. It finds a match wherever it asks for one, and
each action gets the children it takes, so it builds the nodes of the derivation and meets no defect
(`Construction.symbols_eq`, `Construction.rule_eq`).

The recursion of the second pass is bounded by the number of tokens: along the first symbols of
alternatives the rank falls, and behind them a token less is left (`Derives.height_le`).
-/

namespace MessageSelector

open MessageSelector.Derivation (Derives)
open Recognition (Attempt)

/-! ## Matches that nest -/

/-- A symbol has a greater rank than the rule has whose alternative starts with it. -/
def Symbol.rank : Symbol → Nat
  | .token _ => 0
  | .rule r => r.rank + 1

theorem Rule.rank_le (r : Rule) : r.rank ≤ 10 := by
  cases r <;> decide

namespace Derivation

theorem Derives.height_bound {symbols : List Symbol} {d : Derivation} (h : Derives symbols d) :
    d.height ≤ 11 * d.yield.length ∧
      ∀ x xs, symbols = x :: xs → d.height + 11 ≤ x.rank + 11 * d.yield.length := by
  induction h with
  | done => exact ⟨Nat.zero_le _, nofun⟩
  | @token kind t symbols rest _ _ ih =>
    have hheight : (Derivation.token t rest).height + 11 ≤
        11 * (Derivation.token t rest).yield.length := by
      simp only [height, yield, List.length_cons]
      omega
    refine ⟨by omega, ?_⟩
    rintro x xs ⟨⟩
    exact Nat.le_trans hheight (Nat.le_add_left _ _)
  | @rule r index a symbols body rest ha hbody hrest ihbody ihrest =>
    obtain ⟨x, xs, hx, -, hrank⟩ := Rule.symbols_eq_cons (List.mem_of_getElem? ha)
    have hfirst : x.rank ≤ r.rank := by
      cases x with
      | token kind => exact Nat.zero_le _
      | rule s => exact hrank s rfl
    have hin := ihbody.2 x xs hx
    have hheight : (Derivation.rule r index body rest).height + 11 ≤
        (Symbol.rule r).rank + 11 * (Derivation.rule r index body rest).yield.length := by
      simp only [height, yield, List.length_append, Symbol.rank]
      omega
    constructor
    · have hrank : (Symbol.rule r).rank ≤ 11 := Nat.succ_le_succ r.rank_le
      omega
    · rintro x xs ⟨⟩
      exact hheight

/-- At most eleven rules nest in a derivation for each of its tokens. -/
theorem Derives.height_le {symbols : List Symbol} {d : Derivation} (h : Derives symbols d) :
    d.height ≤ 11 * d.yield.length :=
  h.height_bound.1

end Derivation

/-- The rules that nest in a match are bounded by the number of all tokens. -/
theorem Recognizes.height_le {tokens : List Token} {symbols : List Symbol} {p stop : Nat}
    {d : Derivation} (h : Recognizes tokens symbols p (some (stop, d))) :
    d.height ≤ 11 * tokens.length := by
  obtain ⟨hd, hyield, -⟩ := h.sound
  have hlength := congrArg List.length hyield
  rw [List.length_drop, List.length_append] at hlength
  have hheight := hd.height_le
  omega

/-! ## Closed memos -/

namespace Memo

/-- Something is remembered for a rule at a position. -/
def Knows (memo : Memo) (r : Rule) (p : Nat) : Prop :=
  ∃ o, memo.entries[(r, p)]? = some o

/-- With a match something is remembered for every rule that its alternative calls. -/
def Closed (tokens : List Token) (memo : Memo) : Prop :=
  ∀ (r : Rule) (p : Nat) (m : Match) (a : Alternative), memo.entries[(r, p)]? = some (some m) →
    r.alternatives[m.alternative]? = some a → Admits tokens memo.Knows a.symbols p

/-- The second memo is closed and remembers something wherever the first one does. -/
structure Extends (tokens : List Token) (memo memo' : Memo) : Prop where
  knows : ∀ r p, memo.Knows r p → memo'.Knows r p
  closed : memo'.Closed tokens

variable {tokens : List Token} {memo memo' memo'' : Memo}

theorem closed_empty : Closed tokens {} := by
  intro r p m a h
  simp at h

theorem knows_record (memo : Memo) (r : Rule) (p : Nat) (o : Option Match) :
    (memo.record r p o).Knows r p :=
  ⟨o, by rw [record, Std.HashMap.getElem?_insert_self]⟩

theorem Knows.record {r : Rule} {p : Nat} (h : memo.Knows r p) (r' : Rule) (p' : Nat)
    (o : Option Match) : (memo.record r' p' o).Knows r p := by
  obtain ⟨o', ho'⟩ := h
  by_cases hkey : (r', p') = (r, p)
  · cases hkey
    exact memo.knows_record r p o
  · refine ⟨o', ?_⟩
    rw [Memo.record, Std.HashMap.getElem?_insert, if_neg (by simpa using hkey), ho']

namespace Extends

theorem refl (h : memo.Closed tokens) : Extends tokens memo memo :=
  ⟨fun _ _ hknown => hknown, h⟩

theorem trans (h : Extends tokens memo memo') (h' : Extends tokens memo' memo'') :
    Extends tokens memo memo'' :=
  ⟨fun r p hknown => h'.knows r p (h.knows r p hknown), h'.closed⟩

theorem reach (h : memo.Closed tokens) (p : Nat) : Extends tokens memo (memo.reach p) :=
  ⟨fun _ _ hknown => hknown, h⟩

/-- An entry may be made when something is remembered for the rules that it calls. -/
theorem record (h : Extends tokens memo memo') {r : Rule} {p : Nat} {o : Option Match}
    (ho : ∀ (m : Match) (a : Alternative), o = some m → r.alternatives[m.alternative]? = some a →
      Admits tokens memo'.Knows a.symbols p) : Extends tokens memo (memo'.record r p o) := by
  refine ⟨fun r' p' hknown => (h.knows r' p' hknown).record r p o, ?_⟩
  intro r' p' m a hentry ha
  have hadmits : Admits tokens memo'.Knows a.symbols p' := by
    rw [Memo.record, Std.HashMap.getElem?_insert] at hentry
    split at hentry
    · next heq =>
      cases eq_of_beq heq
      exact ho m a (Option.some.inj hentry) ha
    · exact h.closed r' p' m a hentry ha
  exact hadmits.mono fun s q hknown => hknown.record r p o

end Extends

end Memo

/-! ## Recognition keeps the memo closed -/

namespace Discipline

variable {s : TokenStream}

/-- Sub-rules that keep the memo closed, and are remembered when they are answered. -/
def ExtendingSub (s : TokenStream) (sub : Rule → Nat → Attempt Match) : Prop :=
  ∀ r p memo, p ≤ s.tokens.toList.length → (free s.tokens.toList).Sound memo →
    memo.Closed s.tokens.toList → memo.Extends s.tokens.toList (sub r p memo).2 ∧
      ∀ o, (sub r p memo).1 = .ok o → (sub r p memo).2.Knows r p

section Sub

variable {sub : Rule → Nat → Attempt Match}
  (hsub : SoundSub (free s.tokens.toList) (fun _ q => q ≤ s.tokens.toList.length) sub)
  (hextending : ExtendingSub s sub)

include hsub hextending

theorem symbols_extends {symbols : List Symbol} {p : Nat} {memo : Memo}
    (hp : p ≤ s.tokens.toList.length) (hmemo : (free s.tokens.toList).Sound memo)
    (hclosed : memo.Closed s.tokens.toList) :
    memo.Extends s.tokens.toList (Recognition.symbols s sub symbols p memo).2 ∧
      ∀ stop, (Recognition.symbols s sub symbols p memo).1 = .ok (some stop) →
        Admits s.tokens.toList (Recognition.symbols s sub symbols p memo).2.Knows symbols p := by
  induction symbols generalizing p memo with
  | nil => exact ⟨.refl hclosed, fun _ _ => trivial⟩
  | cons x symbols ih =>
    cases x with
    | token kind =>
      rw [Recognition.symbols, get?_eq]
      cases ht : s.tokens.toList[p]? with
      | none =>
        refine ⟨.reach hclosed p, ?_⟩
        intro stop hstop
        cases hstop
      | some t =>
        have hlt := (List.getElem?_eq_some_iff.1 ht).1
        by_cases hk : t.kind = kind
        · obtain ⟨hextends, hadmits⟩ := ih hlt hmemo hclosed
          simp only [hk, ↓reduceIte]
          exact ⟨hextends, fun stop hstop _ _ _ => hadmits stop hstop⟩
        · simp only [hk, ↓reduceIte]
          refine ⟨.reach hclosed p, ?_⟩
          intro stop hstop
          cases hstop
    | rule r =>
      obtain ⟨hsound, hout⟩ := hsub r p memo hp hmemo
      obtain ⟨hfirst, hknown⟩ := hextending r p memo hp hmemo hclosed
      rw [Recognition.symbols]
      rcases hres : sub r p memo with ⟨out, memo'⟩
      rw [hres] at hsound hout hfirst hknown
      rcases out with e | _ | found
      · refine ⟨hfirst, ?_⟩
        intro stop hstop
        cases hstop
      · refine ⟨hfirst, ?_⟩
        intro stop hstop
        cases hstop
      · obtain ⟨-, body, hbody⟩ := hout
        obtain ⟨hrest, hadmits⟩ := ih (hbody.stop_le hp) hsound hfirst.closed
        refine ⟨hfirst.trans hrest, ?_⟩
        intro stop hstop
        refine ⟨hrest.knows r p (hknown _ rfl), ?_⟩
        intro stop' d hd
        cases hbody.unique hd
        exact hadmits stop hstop

theorem alternatives_extends {r : Rule} {p : Nat} {alternatives : List Alternative} {index : Nat}
    {memo : Memo} (hdrop : r.alternatives.drop index = alternatives)
    (hp : p ≤ s.tokens.toList.length) (hmemo : (free s.tokens.toList).Sound memo)
    (hclosed : memo.Closed s.tokens.toList) :
    memo.Extends s.tokens.toList (Recognition.alternatives s sub p alternatives index memo).2 ∧
      ∀ (m : Match) (a : Alternative),
        (Recognition.alternatives s sub p alternatives index memo).1 = .ok (some m) →
        r.alternatives[m.alternative]? = some a →
          Admits s.tokens.toList
            (Recognition.alternatives s sub p alternatives index memo).2.Knows a.symbols p := by
  induction alternatives generalizing index memo with
  | nil =>
    refine ⟨.refl hclosed, ?_⟩
    intro m a hm
    cases hm
  | cons a alternatives ih =>
    obtain ⟨ha, hdrop'⟩ := Recognizes.getElem?_of_drop hdrop
    have hadmits : Admits s.tokens.toList (fun _ q => q ≤ s.tokens.toList.length) a.symbols p :=
      Admits.of_forall hp fun _ _ _ hq => hq
    have hsound := (symbols_sound hsub hadmits hmemo).1
    obtain ⟨hfirst, hknown⟩ :=
      @symbols_extends s sub hsub hextending a.symbols p memo hp hmemo hclosed
    rw [Recognition.alternatives]
    rcases hres : Recognition.symbols s sub a.symbols p memo with ⟨out, memo'⟩
    rw [hres] at hsound hfirst hknown
    rcases out with e | _ | stop
    · refine ⟨hfirst, ?_⟩
      intro m b hm
      cases hm
    · obtain ⟨hrest, hchosen⟩ := ih hdrop' hsound hfirst.closed
      exact ⟨hfirst.trans hrest, hchosen⟩
    · refine ⟨hfirst, ?_⟩
      intro m b hm hb
      cases hm
      cases ha.symm.trans hb
      exact hknown stop rfl

end Sub

/-- Recognizing a rule keeps the memo closed. -/
theorem rule_extends (room : Nat) : ExtendingSub s (Recognition.rule s room) := by
  intro r p memo hp hmemo hclosed
  refine ⟨?_, fun o ho => ⟨o, entry_of_ok ho⟩⟩
  induction room generalizing r p memo with
  | zero => exact .refl hclosed
  | succ room ih =>
    rw [Recognition.rule]
    split
    · exact .refl hclosed
    · have hsub : SoundSub (free s.tokens.toList) (fun _ q => q ≤ s.tokens.toList.length)
          (Recognition.rule s room) :=
        fun r p memo hp hmemo => rule_sound hp hmemo
      have hextending : ExtendingSub s (Recognition.rule s room) :=
        fun r p memo hp hmemo hclosed =>
          ⟨ih r p memo hp hmemo hclosed, fun o ho => ⟨o, entry_of_ok ho⟩⟩
      obtain ⟨hextends, hchosen⟩ :=
        alternatives_extends hsub hextending List.drop_zero hp hmemo hclosed
      rcases hres : Recognition.alternatives s (Recognition.rule s room) p r.alternatives 0 memo
        with ⟨out, memo'⟩
      rw [hres] at hextends hchosen
      cases out with
      | error e => exact hextends
      | ok o =>
        apply hextends.record
        rintro m a rfl ha
        exact hchosen m a rfl ha

end Discipline

/-! ## Building the nodes -/

/-- The action of an alternative builds a node from what its symbols have matched. -/
theorem Recognizes.builds {tokens : List Token} {r : Rule} {a : Alternative} {p stop : Nat}
    {body : Derivation} {nodes : List Node} (ha : a ∈ r.alternatives)
    (h : Recognizes tokens a.symbols p (some (stop, body))) (hnodes : body.nodes? = some nodes) :
    ∃ n, a.action.build nodes = .ok n := by
  obtain ⟨nodes', hnodes', hcovers⟩ := h.sound.1.nodes_cover
  obtain ⟨n, hn, -⟩ := Rule.build_covers ha hcovers
  rw [hnodes] at hnodes'
  cases hnodes'
  exact ⟨n, hn⟩

namespace Construction

variable {s : TokenStream} {memo : Memo} (hmemo : (Discipline.free s.tokens.toList).Sound memo)
  (hclosed : memo.Closed s.tokens.toList)

include hmemo hclosed

/-- **The second pass builds the nodes of the derivation.** The induction is on plain recognition,
whose matches the memo remembers. -/
theorem symbols_eq {symbols : List Symbol} {p stop : Nat} {d : Derivation}
    (h : Recognizes s.tokens.toList symbols p (some (stop, d)))
    (hknown : Admits s.tokens.toList memo.Knows symbols p) {room : Nat} (hroom : d.height ≤ room) :
    ∃ nodes, d.nodes? = some nodes ∧
      Construction.symbols s memo (Construction.rule s memo room) symbols p = .ok nodes := by
  generalize ho : some (stop, d) = o at h
  induction h generalizing stop d room with
  | done p =>
    cases ho
    exact ⟨[], rfl, rfl⟩
  | @token kind symbols p stop t rest ht hk _ ih =>
    cases ho
    obtain ⟨nodes, hnodes, hbuilt⟩ := ih (hknown t ht hk) (show rest.height ≤ room from hroom) rfl
    refine ⟨.leaf 0 t :: nodes, by rw [Derivation.nodes?, hnodes]; rfl, ?_⟩
    rw [Construction.symbols, Discipline.get?_eq, ht]
    simp only [hbuilt]
    rfl
  | @rule r symbols p middle stop index a body rest ha hfail hbody hrest _ ihbody ihrest =>
    cases ho
    obtain ⟨⟨o, hentry⟩, hknownRest⟩ := hknown
    have hmatch : Recognizes s.tokens.toList [.rule r] p
        (some (middle, .rule r index body .done)) := .rule ha hfail hbody (.done _)
    -- What is remembered for the rule is its match.
    have hmatched : memo.entries[(r, p)]? = some (some ⟨index, middle⟩) := by
      have hanswer := hmemo r p o hentry
      rcases o with _ | ⟨index', stop'⟩
      · cases hanswer.2.unique hmatch
      · obtain ⟨-, body', hbody'⟩ := hanswer
        cases hmatch.unique hbody'
        exact hentry
    obtain ⟨room, rfl⟩ : ∃ fewer, room = fewer + 1 := by
      simp only [Derivation.height] at hroom
      exact Nat.exists_eq_add_of_le' (by omega)
    simp only [Derivation.height] at hroom
    obtain ⟨children, hchildren, hbuiltBody⟩ :=
      ihbody (hclosed r p _ a hmatched ha) (show body.height ≤ room by omega) rfl
    obtain ⟨nodes, hnodes, hbuiltRest⟩ :=
      ihrest (hknownRest middle _ hmatch) (show rest.height ≤ room + 1 by omega) rfl
    obtain ⟨n, hn⟩ := hbody.builds (List.mem_of_getElem? ha) hchildren
    refine ⟨n :: nodes,
      Derivation.nodes?_rule.2 ⟨a, children, n, nodes, ha, hchildren, hn, hnodes, rfl⟩, ?_⟩
    have hrule : Construction.rule s memo (room + 1) r p = .ok n := by
      rw [Construction.rule, Memo.matched, hmatched]
      simp only [bind, Except.bind, ha, hbuiltBody, hn]
    rw [Construction.symbols, hrule, Memo.matched, hmatched]
    simp only [bind, Except.bind, hbuiltRest]
    rfl
  | tokenThen | mismatch | ruleThen | failure => cases ho

/-- From a match that is remembered the second pass builds the node of its derivation. -/
theorem rule_eq {r : Rule} {p : Nat} {m : Match} (hentry : memo.entries[(r, p)]? = some (some m)) :
    ∃ body n, Recognizes s.tokens.toList [.rule r] p
        (some (m.stop, .rule r m.alternative body .done)) ∧
      (Derivation.rule r m.alternative body .done).nodes? = some [n] ∧
      Construction.rule s memo (11 * s.size) r p = .ok n := by
  obtain ⟨-, body, hmatch⟩ := hmemo r p _ hentry
  have hknown : Admits s.tokens.toList memo.Knows [.rule r] p := ⟨⟨_, hentry⟩, fun _ _ _ => trivial⟩
  obtain ⟨nodes, hnodes, hbuilt⟩ := symbols_eq hmemo hclosed hmatch hknown hmatch.height_le
  obtain ⟨_, _, n, _, _, _, _, ⟨⟩, rfl⟩ := Derivation.nodes?_rule.1 hnodes
  refine ⟨body, n, hmatch, hnodes, ?_⟩
  rw [Array.length_toList] at hbuilt
  rw [Construction.symbols, Memo.matched, hentry] at hbuilt
  rw [TokenStream.size]
  rcases hrule : Construction.rule s memo (11 * s.tokens.size) r p with defect | n'
  · rw [hrule] at hbuilt
    cases hbuilt
  · rw [hrule] at hbuilt
    cases hbuilt
    rfl

end Construction

end MessageSelector
