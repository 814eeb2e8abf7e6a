import MessageSelector.Proofs.Acceptance
import MessageSelector.Proofs.Furthest

/-!
# Positions of errors

The position that a failed parse reports is exact (`parse_error_position`). Where no selector is
found, the tokens in front of the position start a sentence of the grammar (`Viable`), and with the
token at it they start none. Where tokens are left over, those in front of the position are the
longest sentence that the tokens start with.

The first half follows from a comparison of two recognitions (`Replays`, `Recognizes.replay`).
Tokens that are the same up to the furthest mismatch are recognized in the same way, or beyond it;
behind the furthest mismatch everything matches. The second half says that ordered choice is greedy:
no derivation of a prefix reaches further than what is recognized.
-/

namespace MessageSelector

open MessageSelector.Derivation (Derives)

/-- The tokens are the start of a sentence of the grammar. -/
def Viable (tokens : List Token) : Prop :=
  ∃ (more : List Token) (d : Derivation), d.IsSentence (tokens ++ more)

/-! ## Every start can be completed -/

/-- Every rule has an alternative of one symbol. -/
theorem Rule.any_single (r : Rule) : r.alternatives.any fun a => a.symbols.length = 1 := by
  cases r <;> rfl

/-- Every rule derives something: along alternatives of one symbol the rank falls. -/
theorem Rule.exists_derives (r : Rule) :
    ∃ (index : Nat) (a : Alternative) (body : Derivation),
      r.alternatives[index]? = some a ∧ Derives a.symbols body := by
  induction hn : r.rank using Nat.strongRecOn generalizing r with
  | ind n ih =>
    obtain ⟨a, hmem, hsingle⟩ := List.any_eq_true.1 r.any_single
    obtain ⟨index, ha⟩ := List.getElem?_of_mem hmem
    obtain ⟨x, xs, hx, -, hrank⟩ := Rule.symbols_eq_cons hmem
    obtain rfl : xs = [] := by simpa [hx] using hsingle
    cases x with
    | token kind =>
      exact ⟨index, a, .token ⟨kind, "", 0⟩ .done, ha, hx ▸ .token rfl .done⟩
    | rule s =>
      obtain ⟨index', b, body, hb, hbody⟩ := ih s.rank (hn ▸ hrank s rfl) s rfl
      exact ⟨index, a, .rule s index' body .done, ha, hx ▸ .rule hb hbody .done⟩

theorem Derivation.exists_derives (symbols : List Symbol) : ∃ d, Derives symbols d := by
  induction symbols with
  | nil => exact ⟨.done, .done⟩
  | cons x symbols ih =>
    obtain ⟨rest, hrest⟩ := ih
    cases x with
    | token kind => exact ⟨.token ⟨kind, "", 0⟩ rest, .token rfl hrest⟩
    | rule r =>
      obtain ⟨index, a, body, ha, hbody⟩ := r.exists_derives
      exact ⟨.rule r index body rest, .rule ha hbody hrest⟩

variable {tokens : List Token}

/-- The tokens in front of a mismatch start a derivation. -/
theorem Stumbles.completes {symbols : List Symbol} {p q : Nat}
    (h : Stumbles tokens symbols p q) :
    ∃ front after d, tokens.drop p = front ++ tokens.drop q ∧ q = p + front.length ∧
      Derives symbols d ∧ d.yield = front ++ after := by
  induction h with
  | @here kind symbols p _ =>
    obtain ⟨d, hd⟩ := Derivation.exists_derives (.token kind :: symbols)
    exact ⟨[], d.yield, d, rfl, rfl, hd, rfl⟩
  | @token kind symbols p q t ht hk _ ih =>
    obtain ⟨front, after, d, hdrop, hq, hd, hyield⟩ := ih
    refine ⟨t :: front, after, .token t d, ?_, ?_, .token hk hd, ?_⟩
    · rw [Recognizes.drop_eq_cons ht, hdrop, List.cons_append]
    · rw [hq, List.length_cons]
      omega
    · rw [Derivation.yield, hyield, List.cons_append]
  | @inside r symbols p q index a htries _ ih =>
    obtain ⟨front, after, body, hdrop, hq, hbody, hyield⟩ := ih
    obtain ⟨rest, hrest⟩ := Derivation.exists_derives symbols
    refine ⟨front, after ++ rest.yield, .rule r index body rest, hdrop, hq,
      .rule htries.alternative hbody hrest, ?_⟩
    rw [Derivation.yield, hyield, List.append_assoc]
  | behind hmatch _ ih =>
    obtain ⟨front, after, rest, hdrop, hq, hrest, hyield⟩ := ih
    cases hmatch with
    | @rule _ _ _ middle _ index _ body _ ha hfail hbody hdone =>
      cases hdone
      obtain ⟨hderives, hdrop', hstop⟩ := hbody.sound
      refine ⟨body.yield ++ front, after, .rule _ index body rest, ?_, ?_,
        .rule ha hderives hrest, ?_⟩
      · rw [hdrop', hdrop, List.append_assoc]
      · rw [hq, hstop, List.length_append]
        omega
      · rw [Derivation.yield, hyield, List.append_assoc]

theorem Stumbles.le_length {symbols : List Symbol} {p q : Nat} (h : Stumbles tokens symbols p q)
    (hp : p ≤ tokens.length) : q ≤ tokens.length := by
  obtain ⟨front, -, -, hdrop, hq, -, -⟩ := h.completes
  have hlen := congrArg List.length hdrop
  simp only [List.length_append, List.length_drop] at hlen
  omega

/-- The tokens in front of a mismatch of the root rule start a sentence. -/
theorem Stumbles.viable {q : Nat} (h : Stumbles tokens [.rule Rule.root] 0 q) :
    Viable (tokens.take q) := by
  obtain ⟨front, after, d, hdrop, hq, hd, hyield⟩ := h.completes
  rw [Nat.zero_add] at hq
  rw [List.drop_zero] at hdrop
  refine ⟨after, d, hd, ?_⟩
  rw [hyield, hdrop, hq, List.take_left']
  rfl

/-! ## Recognition answers -/

/-- Plain recognition always has an answer. -/
theorem Recognizes.total (symbols : List Symbol) {p : Nat} (hp : p ≤ tokens.length) :
    ∃ o, Recognizes tokens symbols p o := by
  have hrule (r : Rule) {p : Nat} (hp : p ≤ tokens.length) :
      ∃ o, Recognizes tokens [.rule r] p o := by
    -- With room for every call that can be made there is no limit to be met.
    have hout := (@Discipline.rule_sound (TokenStream.ofList tokens) (.short tokens)
      (r.rank + 11 * (tokens.length - p) + 1) r p {} ⟨hp, Nat.lt_succ_self _⟩
      (Discipline.sound_empty _)).2
    generalize (Recognition.rule (TokenStream.ofList tokens) _ r p {}).1 = out at hout
    rcases out with e | _ | found
    · obtain ⟨_, _, hzero, -⟩ := hout
      exact absurd hzero.2 (Nat.not_lt_zero _)
    · exact ⟨none, hout.2⟩
    · obtain ⟨-, body, hbody⟩ := hout
      exact ⟨_, hbody⟩
  induction symbols generalizing p with
  | nil => exact ⟨_, .done p⟩
  | cons x symbols ih =>
    cases x with
    | token kind =>
      by_cases hmatch : ∃ t, tokens[p]? = some t ∧ t.kind = kind
      · obtain ⟨t, ht, hk⟩ := hmatch
        obtain ⟨o, ho⟩ := ih (List.getElem?_eq_some_iff.1 ht).1
        rcases o with _ | ⟨stop, d⟩
        · exact ⟨none, .tokenThen ht hk ho⟩
        · exact ⟨_, .token ht hk ho⟩
      · exact ⟨none, .mismatch fun t ht hk => hmatch ⟨t, ht, hk⟩⟩
    | rule r =>
      obtain ⟨o, ho⟩ := hrule r hp
      rcases o with _ | ⟨middle, d⟩
      · exact ⟨none, ho.rule_none symbols⟩
      · obtain ⟨o, hrest⟩ := ih (ho.stop_le hp)
        cases ho with
        | rule ha hfail hbody hdone =>
          cases hdone
          rcases o with _ | ⟨stop, rest⟩
          · exact ⟨none, .ruleThen ha hfail hbody hrest⟩
          · exact ⟨_, .rule ha hfail hbody hrest⟩

/-- If each of the first alternatives that is tried fails or matches up to a good place, then all of
them fail or the rule matches up to a good place. -/
theorem Rule.fail_or_match {r : Rule} {p : Nat} {good : Nat → Prop} {n : Nat}
    (h : ∀ i a, i < n → r.Tries tokens p i a → Recognizes tokens a.symbols p none ∨
      ∃ stop body, Recognizes tokens a.symbols p (some (stop, body)) ∧ good stop) :
    (∀ i, i < n → ∀ b : Alternative, r.alternatives[i]? = some b →
      Recognizes tokens b.symbols p none) ∨
      ∃ stop d, Recognizes tokens [.rule r] p (some (stop, d)) ∧ good stop := by
  induction n with
  | zero => exact .inl fun i hi => absurd hi (Nat.not_lt_zero i)
  | succ n ih =>
    rcases ih fun i a hi => h i a (Nat.lt_succ_of_lt hi) with hfail | hmatch
    · by_cases hnone : ∀ a, r.alternatives[n]? = some a → Recognizes tokens a.symbols p none
      · exact .inl (Rule.before_succ hfail hnone)
      · simp only [Classical.not_forall] at hnone
        obtain ⟨a, ha, hne⟩ := hnone
        obtain ⟨stop, body, hbody, hgood⟩ :=
          (h n a (Nat.lt_succ_self n) ⟨ha, hfail⟩).resolve_left hne
        exact .inr ⟨stop, _, .rule ha hfail hbody (.done _), hgood⟩
    · exact .inr hmatch

/-! ## The token at the furthest mismatch -/

/-- An answer that other tokens have given is given again, or the symbols match up to a place behind
the given one. -/
inductive Replays (tokens : List Token) (n : Nat) (symbols : List Symbol) (p : Nat) :
    Option (Nat × Derivation) → Prop
  | unmatched : Recognizes tokens symbols p none → Replays tokens n symbols p none
  | matched {stop : Nat} {d : Derivation} : Recognizes tokens symbols p (some (stop, d)) →
    stop ≤ n → Replays tokens n symbols p (some (stop, d))
  | past {o : Option (Nat × Derivation)} {stop : Nat} {d : Derivation} :
    Recognizes tokens symbols p (some (stop, d)) → n < stop → Replays tokens n symbols p o

section Replay

variable {n : Nat} {symbols : List Symbol} {p : Nat}

/-- Behind all mismatches everything matches. -/
theorem Recognizes.of_stumbles_lt (hp : p ≤ tokens.length)
    (h : ∀ q, Stumbles tokens symbols p q → q < p) :
    ∃ stop d, Recognizes tokens symbols p (some (stop, d)) ∧ p ≤ stop := by
  obtain ⟨o, ho⟩ := Recognizes.total symbols hp
  rcases o with _ | ⟨stop, d⟩
  · obtain ⟨q, hq, hstumbles⟩ := ho.stumbles
    have hlt := h q hstumbles
    omega
  · have hstop := ho.sound.2.2
    exact ⟨stop, d, ho, by omega⟩

/-- Right behind all mismatches. -/
theorem Replays.of_eq {tokens' : List Token} {o : Option (Nat × Derivation)}
    (hstumbles : ∀ q, Stumbles tokens symbols p q → q < n) (h : Recognizes tokens' symbols p o)
    (hn : n ≤ tokens.length) (hp : p = n) :
    Replays tokens n symbols p o := by
  subst hp
  cases symbols with
  | nil =>
    cases h
    exact .matched (.done p) (Nat.le_refl p)
  | cons x symbols =>
    obtain ⟨stop, d, hmatch, -⟩ := Recognizes.of_stumbles_lt hn hstumbles
    obtain ⟨hd, -, hstop⟩ := hmatch.sound
    obtain ⟨t, rest, hyield, -⟩ := hd.first
    rw [hyield, List.length_cons] at hstop
    exact .past hmatch (by omega)

end Replay

namespace Replays

variable {n p : Nat} {r : Rule}

/-- The first alternatives of a rule fail again, or the rule matches beyond the place. -/
theorem fail_or_past {m : Nat} (hstumbles : ∀ q, Stumbles tokens [.rule r] p q → q < n)
    (h : ∀ i, i < m → ∀ b : Alternative, r.alternatives[i]? = some b →
      (∀ q, Stumbles tokens b.symbols p q → q < n) → Replays tokens n b.symbols p none) :
    (∀ i, i < m → ∀ b : Alternative, r.alternatives[i]? = some b →
      Recognizes tokens b.symbols p none) ∨
      ∃ stop d, Recognizes tokens [.rule r] p (some (stop, d)) ∧ n < stop := by
  apply Rule.fail_or_match
  intro i b hi htries
  cases h i hi b htries.alternative fun q hq => hstumbles q (.inside htries hq) with
  | unmatched hnone => exact .inl hnone
  | past hmatch hpast => exact .inr ⟨_, _, hmatch, hpast⟩

/-- A rule chooses the same alternative again, or matches beyond the place. -/
theorem rule {index middle : Nat} {a : Alternative} {body : Derivation}
    (ha : r.alternatives[index]? = some a)
    (hstumbles : ∀ q, Stumbles tokens [.rule r] p q → q < n)
    (hfail : ∀ i, i < index → ∀ b : Alternative, r.alternatives[i]? = some b →
      (∀ q, Stumbles tokens b.symbols p q → q < n) → Replays tokens n b.symbols p none)
    (hbody : (∀ q, Stumbles tokens a.symbols p q → q < n) →
      Replays tokens n a.symbols p (some (middle, body))) :
    Replays tokens n [.rule r] p (some (middle, .rule r index body .done)) := by
  rcases fail_or_past hstumbles hfail with hnone | ⟨stop, d, hmatch, hpast⟩
  · cases hbody fun q hq => hstumbles q (.inside ⟨ha, hnone⟩ hq) with
    | matched hmatch hle => exact .matched (.rule ha hnone hmatch (.done _)) hle
    | past hmatch hpast => exact .past (.rule ha hnone hmatch (.done _)) hpast
  · exact .past hmatch hpast

/-- A rule that matches beyond the place is followed by matches. -/
theorem rule_past {symbols : List Symbol} {o : Option (Nat × Derivation)} {stop : Nat}
    {d : Derivation} (hp : p ≤ tokens.length)
    (hstumbles : ∀ q, Stumbles tokens (.rule r :: symbols) p q → q < n)
    (h : Recognizes tokens [.rule r] p (some (stop, d))) (hpast : n < stop) :
    Replays tokens n (.rule r :: symbols) p o := by
  have hbehind : ∀ q, Stumbles tokens symbols stop q → q < stop := by
    intro q hq
    have hlt := hstumbles q (.behind h hq)
    omega
  obtain ⟨stop', rest, hrest, hle⟩ := Recognizes.of_stumbles_lt (h.stop_le hp) hbehind
  cases h with
  | rule ha hfail hbody hdone =>
    cases hdone
    exact .past (.rule ha hfail hbody hrest) (by omega)

end Replays

/-- Tokens that are the same in front of a place behind all mismatches are recognized in the same
way, or beyond that place. -/
theorem Recognizes.replay {tokens' : List Token} {n : Nat}
    (hsame : ∀ i, i < n → tokens[i]? = tokens'[i]?) (hn : n ≤ tokens.length)
    {symbols : List Symbol} {p : Nat} {o : Option (Nat × Derivation)}
    (h : Recognizes tokens' symbols p o) (hp : p ≤ n)
    (hstumbles : ∀ q, Stumbles tokens symbols p q → q < n) : Replays tokens n symbols p o := by
  induction h with
  | done p => exact .matched (.done p) hp
  | @mismatch kind symbols p hne =>
    rcases Nat.eq_or_lt_of_le hp with heq | hlt
    · exact .of_eq hstumbles (.mismatch hne) hn heq
    · rw [← hsame p hlt] at hne
      exact .unmatched (.mismatch hne)
  | @token kind symbols p stop t rest ht hk hrest ih =>
    rcases Nat.eq_or_lt_of_le hp with heq | hlt
    · exact .of_eq hstumbles (.token ht hk hrest) hn heq
    · rw [← hsame p hlt] at ht
      cases ih hlt fun q hq => hstumbles q (.token ht hk hq) with
      | matched hmatch hle => exact .matched (.token ht hk hmatch) hle
      | past hmatch hpast => exact .past (.token ht hk hmatch) hpast
  | @tokenThen kind symbols p t ht hk hrest ih =>
    rcases Nat.eq_or_lt_of_le hp with heq | hlt
    · exact .of_eq hstumbles (.tokenThen ht hk hrest) hn heq
    · rw [← hsame p hlt] at ht
      cases ih hlt fun q hq => hstumbles q (.token ht hk hq) with
      | unmatched hnone => exact .unmatched (.tokenThen ht hk hnone)
      | past hmatch hpast => exact .past (.token ht hk hmatch) hpast
  | @rule r symbols p middle stop index a body rest ha _ _ _ ihfail ihbody ihrest =>
    have hrule := Replays.rule ha (fun q hq => hstumbles q (hq.of_first symbols))
      (fun i hi b hb => ihfail i hi b hb hp) (ihbody hp)
    cases hrule with
    | past hmatch hpast => exact .rule_past (by omega) hstumbles hmatch hpast
    | matched hmatch hmiddle =>
      have hrest := ihrest hmiddle fun q hq => hstumbles q (.behind hmatch hq)
      cases hrest with
      | matched hrest hle => exact .matched (hmatch.rule_append hrest) hle
      | past hrest hpast => exact .past (hmatch.rule_append hrest) hpast
  | @ruleThen r symbols p middle index a body ha _ _ _ ihfail ihbody ihrest =>
    have hrule := Replays.rule ha (fun q hq => hstumbles q (hq.of_first symbols))
      (fun i hi b hb => ihfail i hi b hb hp) (ihbody hp)
    cases hrule with
    | past hmatch hpast => exact .rule_past (by omega) hstumbles hmatch hpast
    | matched hmatch hmiddle =>
      have hrest := ihrest hmiddle fun q hq => hstumbles q (.behind hmatch hq)
      cases hrest with
      | unmatched hnone => exact .unmatched (hmatch.rule_append_none hnone)
      | past hrest hpast => exact .past (hmatch.rule_append hrest) hpast
  | @failure r symbols p _ ih =>
    have hfirst : ∀ q, Stumbles tokens [.rule r] p q → q < n :=
      fun q hq => hstumbles q (hq.of_first symbols)
    have hall := Replays.fail_or_past (m := r.alternatives.length) hfirst
      fun i _ b hb => ih i b hb hp
    rcases hall with hnone | ⟨stop, d, hmatch, hpast⟩
    · exact .unmatched (.failure fun i b hb => hnone i (List.getElem?_eq_some_iff.1 hb).1 b hb)
    · exact .rule_past (by omega) hstumbles hmatch hpast

/-- With the token at the furthest mismatch, the tokens start no sentence. -/
theorem Stumbles.Furthest.not_viable {q : Nat}
    (h : Stumbles.Furthest tokens [.rule Rule.root] 0 q)
    (hnone : Recognizes tokens [.rule Rule.root] 0 none) (hq : q < tokens.length) :
    ¬ Viable (tokens.take (q + 1)) := by
  rintro ⟨more, d, hd⟩
  have hsame : ∀ i, i < q + 1 → tokens[i]? = (tokens.take (q + 1) ++ more)[i]? := by
    intro i hi
    have hlen : i < (tokens.take (q + 1)).length := by
      rw [List.length_take]
      omega
    rw [List.getElem?_append_left hlen, List.getElem?_take_of_lt hi]
  have hreplays := (Recognizes.of_isSentence hd).replay hsame hq (Nat.zero_le _)
    fun q' hq' => Nat.lt_succ_of_le (h.2 q' hq')
  cases hreplays with
  | matched hmatch _ => cases hmatch.unique hnone
  | past hmatch _ => cases hmatch.unique hnone

/-! ## Ordered choice is greedy -/

namespace Recognizes

/-- Where the table separates two sequences of symbols, a match of the first one reaches as far as a
match of the second one. -/
theorem stop_le_of_separates {blocked : List Token.Kind} {xs ys : List Symbol} {p stop stop' : Nat}
    {d d' : Derivation} (hxs : Recognizes tokens xs p (some (stop', d')))
    (hys : Recognizes tokens ys p (some (stop, d))) (hsep : Symbol.separates blocked xs ys) :
    stop ≤ stop' := by
  induction xs generalizing ys p d d' with
  | nil => simp [Symbol.separates] at hsep
  | cons x xs ih =>
    cases ys with
    | nil =>
      cases hys
      have hstop := hxs.sound.2.2
      omega
    | cons y ys =>
      rw [Symbol.separates] at hsep
      split at hsep
      · next heq =>
        subst heq
        cases hys with
        | token ht _ hrest =>
          cases hxs with
          | token _ _ hrest' => exact ih hrest' hrest hsep
        | rule ha hfail hbody hrest =>
          cases hxs with
          | rule ha' hfail' hbody' hrest' =>
            have hmatch := Recognizes.rule ha hfail hbody (.done _)
            have hmatch' := Recognizes.rule ha' hfail' hbody' (.done _)
            cases hmatch.unique hmatch'
            exact ih hrest' hrest hsep
      · obtain ⟨t, ht, hk⟩ := hxs.first
        obtain ⟨t', ht', hk'⟩ := hys.first
        cases ht.symm.trans ht'
        exact absurd hk' (by simpa using List.all_eq_true.1 hsep _ hk)

/-- What is derived is recognized at least as far. -/
theorem reaches {symbols : List Symbol} {d : Derivation} (h : Derives symbols d)
    {blocked : List Token.Kind} (hadj : Symbol.adjoins blocked symbols) {p : Nat}
    {after : List Token} (hp : tokens.drop p = d.yield ++ after) (hle : p ≤ tokens.length) :
    ∃ stop d', Recognizes tokens symbols p (some (stop, d')) ∧ p + d.yield.length ≤ stop := by
  induction h generalizing blocked p after with
  | done => exact ⟨p, .done, .done p, Nat.le_refl p⟩
  | @token kind t symbols rest hk _ ih =>
    obtain ⟨ht, hdrop⟩ := getElem?_of_drop hp
    obtain ⟨stop, d', hmatch, hstop⟩ :=
      ih (adjoins_tail hadj) hdrop (List.getElem?_eq_some_iff.1 ht).1
    refine ⟨stop, .token t d', .token ht hk hmatch, ?_⟩
    rw [Derivation.yield, List.length_cons]
    omega
  | @rule r index a symbols body rest ha hbody hrest ihbody ihrest =>
    rw [Derivation.yield, List.append_assoc] at hp
    have hmem : a ∈ r.alternatives := List.mem_of_getElem? ha
    have hbodyAdj := ((Rule.separated r).1 a hmem).1
    rw [Derivation.yield, List.length_append]
    cases symbols with
    | nil =>
      cases hrest
      obtain ⟨stop, body', hmatch, hstop⟩ := ihbody hbodyAdj hp hle
      -- An earlier alternative that matches reaches at least as far.
      have hearlier (i : Nat) (b : Alternative) (hi : i < index) (htries : r.Tries tokens p i b) :
          Recognizes tokens b.symbols p none ∨ ∃ stop' d',
            Recognizes tokens b.symbols p (some (stop', d')) ∧ p + body.yield.length ≤ stop' := by
        obtain ⟨o, ho⟩ := Recognizes.total b.symbols hle
        rcases o with _ | ⟨stop', d'⟩
        · exact .inl ho
        · have hreach := ho.stop_le_of_separates hmatch
            (Rule.separates_of_lt hi htries.alternative ha)
          exact .inr ⟨stop', d', ho, by omega⟩
      rcases Rule.fail_or_match hearlier with hfail | hfurther
      · exact ⟨stop, _, .rule ha hfail hmatch (.done _), hstop⟩
      · exact hfurther
    | cons y ys =>
      -- The next symbol starts with a token that no match of the rule could go on with.
      have hnext := not_mem_blocks_of_cons (x := .rule r) hrest hadj after
      have hmatch := complete hbody hbodyAdj hp hnext
      have hdrop : tokens.drop (p + body.yield.length) = rest.yield ++ after := by
        rw [← List.drop_drop, hp, List.drop_left]
      have hfail : ∀ i, i < index → ∀ b : Alternative, r.alternatives[i]? = some b →
          Recognizes tokens b.symbols p none := by
        intro i hi b hb
        refine fails_of_separates hmatch (Rule.separates_of_lt hi hb ha) fun t ht => hnext t ?_
        rw [← hdrop, List.head?_drop, ht]
      obtain ⟨stop, d', hrestMatch, hstop⟩ :=
        ihrest (adjoins_tail hadj) hdrop (hmatch.stop_le hle)
      exact ⟨stop, _, .rule ha hfail hmatch hrestMatch, by omega⟩

end Recognizes

/-- What is recognized of the tokens is the longest sentence that they start with. -/
theorem Recognizes.not_isSentence {stop q : Nat} {d d' : Derivation}
    (h : Recognizes tokens [.rule Rule.root] 0 (some (stop, d))) (hlt : stop < q)
    (hq : q ≤ tokens.length) : ¬ d'.IsSentence (tokens.take q) := by
  intro hd'
  have hadj : Symbol.adjoins Rule.root.blocks [.rule Rule.root] := by decide
  have hdrop : tokens.drop 0 = d'.yield ++ tokens.drop q := by
    rw [hd'.yield_eq, List.take_append_drop, List.drop_zero]
  obtain ⟨stop', d'', hmatch, hle⟩ := reaches hd'.derives hadj hdrop (Nat.zero_le _)
  cases h.unique hmatch
  rw [hd'.yield_eq, List.length_take] at hle
  omega

/-! ## The second of two tokens -/

/-- A rule fails with the rule that all its alternatives start with. -/
theorem Recognizes.fails_of_head {r s : Rule} {p : Nat} (h : Recognizes tokens [.rule s] p none)
    (hhead : ∀ a ∈ r.alternatives, a.symbols.head? = some (.rule s)) :
    Recognizes tokens [.rule r] p none := by
  refine .failure fun i b hb => ?_
  obtain ⟨symbols, hsymbols⟩ := List.head?_eq_some_iff.1 (hhead b (List.mem_of_getElem? hb))
  rw [hsymbols]
  exact h.rule_none symbols

/-- No selector starts with `NOT` if no comparison starts behind it. -/
theorem Recognizes.fails_of_not {t : Token} {more : List Token} (hk : t.kind = .not)
    (hmore : ∀ t', more.head? = some t' → t'.kind ∉ Rule.cmpExpr.first) :
    Recognizes (t :: more) [.rule Rule.root] 0 none := by
  have hoperand : Recognizes (t :: more) [.rule .cmpExpr] 1 none :=
    fails_of_first fun t' ht' => hmore t' (List.head?_eq_getElem? ▸ ht')
  have hnot : Recognizes (t :: more) [.rule .notExpr] 0 none := by
    refine .failure fun i b hb => ?_
    match i, hb with
    | 0, hb =>
      cases hb
      exact .tokenThen rfl hk hoperand
    | 1, hb =>
      cases hb
      refine fails_of_first fun t'' ht'' => Option.some.inj ht'' ▸ ?_
      rw [hk]
      decide
  have hand : Recognizes (t :: more) [.rule .andExpr] 0 none := hnot.fails_of_head (by decide)
  have hor : Recognizes (t :: more) [.rule .orExpr] 0 none := hand.fails_of_head (by decide)
  exact hor.fails_of_head (by decide)

/-- So the token behind `NOT` is in no start of a sentence. -/
theorem Recognizes.not_viable_of_not {t : Token} {more : List Token} (hk : t.kind = .not)
    (hmore : ∀ t', more.head? = some t' → t'.kind ∉ Rule.cmpExpr.first) {n : Nat}
    (hn : n + 2 ≤ (t :: more).length) : ¬ Viable ((t :: more).take (n + 2)) := by
  rintro ⟨rest, d, hd⟩
  cases more with
  | nil => exact absurd (Nat.le_of_succ_le_succ hn) (Nat.not_succ_le_zero n)
  | cons t' more =>
    have hnone : Recognizes (t :: t' :: (more.take n ++ rest)) [.rule Rule.root] 0 none :=
      .fails_of_not hk hmore
    cases hnone.unique (Recognizes.of_isSentence hd)

namespace Parser

/-- The place behind `NOT` is reported, if no comparison starts there. -/
theorem parse_not {t : Token} {more : List Token} (hfew : more.length ≤ 44) (hk : t.kind = .not)
    (hmore : ∀ t', more.head? = some t' → t'.kind ∉ Rule.cmpExpr.first) :
    ∃ offset found,
      (Parser.ofList (t :: more)).parse = .error (.parse (.noMatch 1 offset found)) := by
  have hnone : Recognizes (t :: more) [.rule Rule.root] 0 none := .fails_of_not hk hmore
  have hroot : (Discipline.short (t :: more)).call (maxRuleDepth + 1) Rule.root 0 := by
    simp only [Discipline.short, Rule.root, Rule.rank, maxRuleDepth, List.length_cons]
    omega
  have hout := parse_outcome (Discipline.short (t :: more)) (List.cons_ne_nil _ _) hroot
  generalize hres : (Parser.ofList (t :: more)).parse = res at hout ⊢
  cases hout with
  | ok hd _ _ => cases hnone.unique (Recognizes.of_isSentence hd)
  | trailing hmatch _ => cases hnone.unique hmatch
  | tooDeep hzero => exact absurd hzero.2 (Nat.not_lt_zero _)
  | @noMatch position offset found _ =>
    obtain ⟨-, hstumbles, hfurthest⟩ := parse_noMatch hres
    have hle : position ≤ (t :: more).length := hstumbles.le_length (Nat.zero_le _)
    have hlt : position < 2 := by
      refine Nat.lt_of_not_le fun hge => ?_
      obtain ⟨n, rfl⟩ := Nat.exists_eq_add_of_le' hge
      exact Recognizes.not_viable_of_not hk hmore hle hstumbles.viable
    have hpos : 1 ≤ position := by
      have hoperand : Recognizes (t :: more) [.rule .cmpExpr] 1 none :=
        .fails_of_first fun t' ht' => hmore t' (List.head?_eq_getElem? ▸ ht')
      obtain ⟨q, hq, hbehind⟩ := hoperand.stumbles
      have hnot : Stumbles (t :: more) [.token .not, .rule .cmpExpr] 0 q := .token rfl hk hbehind
      have hand : Stumbles (t :: more) [.rule .andExpr] 0 q :=
        .inside (.first rfl) (.inside (.first rfl) hnot)
      have hor : Stumbles (t :: more) [.rule .orExpr] 0 q :=
        .inside (.first rfl) (hand.of_first _)
      have hle := hfurthest q (.inside (.first rfl) hor)
      omega
    obtain rfl : position = 1 := by omega
    exact ⟨offset, found, rfl⟩

/-- What stands behind a selector of one identifier is left over. -/
theorem parse_ident {t t' : Token} (hk : t.kind = .ident) (hk' : t'.kind ∉ Rule.root.blocks) :
    ∃ offset found,
      (Parser.ofList [t, t']).parse = .error (.parse (.trailingTokens 1 offset found)) := by
  have hspells : Spells [.rule .simple] [t] [.leaf 0 t] := .literal (by rw [hk]; rfl)
  have hdrop : [t, t'].drop 0 = [t] ++ [t'] := rfl
  obtain ⟨m, ⟨body, hmatch, -⟩, hm⟩ := hspells.expr.builds hdrop (by simpa using hk')
  rw [hm] at hmatch
  have hroot : (Discipline.short [t, t']).call (maxRuleDepth + 1) Rule.root 0 := by
    simp [Discipline.short, Rule.root, Rule.rank, maxRuleDepth]
  have hout := parse_outcome (Discipline.short [t, t']) (List.cons_ne_nil _ _) hroot
  generalize hres : (Parser.ofList [t, t']).parse = res at hout ⊢
  cases hout with
  | ok hd _ _ => cases hmatch.unique (Recognizes.of_isSentence hd)
  | noMatch hnone => cases hmatch.unique hnone
  | tooDeep hzero => exact absurd hzero.2 (Nat.not_lt_zero _)
  | trailing hmatch' _ =>
    cases hmatch.unique hmatch'
    exact ⟨_, _, rfl⟩

/-- **Positions of errors are exact.** If no selector is found, the tokens in front of the reported
position are the start of a sentence, and those up to the token at it are not, unless the position
is behind all tokens. If tokens are left over, those in front of the reported position are a
sentence, and no longer start of the tokens is one. -/
theorem parse_error_position (tokens : List Token) (position offset : Nat) (found : String) :
    ((Parser.ofList tokens).parse = .error (.parse (.noMatch position offset found)) →
      position ≤ tokens.length ∧ Viable (tokens.take position) ∧
        (position < tokens.length → ¬ Viable (tokens.take (position + 1)))) ∧
    ((Parser.ofList tokens).parse = .error (.parse (.trailingTokens position offset found)) →
      position < tokens.length ∧ (∃ d : Derivation, d.IsSentence (tokens.take position)) ∧
        ∀ longer, position < longer → longer ≤ tokens.length →
          ¬ ∃ d : Derivation, d.IsSentence (tokens.take longer)) := by
  constructor
  · intro h
    obtain ⟨hnone, hfurthest⟩ := parse_noMatch h
    exact ⟨hfurthest.1.le_length (Nat.zero_le _), hfurthest.1.viable,
      hfurthest.not_viable hnone⟩
  · intro h
    have hne : tokens ≠ [] := by
      rintro rfl
      cases h
    have hout := parse_outcome (Discipline.free tokens) hne (Nat.zero_le _)
    rw [h] at hout
    cases hout with
    | @trailing _ _ _ d hmatch hlt =>
      obtain ⟨hd, hyield, hstop⟩ := hmatch.sound
      refine ⟨hlt, ⟨d, hd, ?_⟩, ?_⟩
      · rw [List.drop_zero] at hyield
        rw [hyield, List.take_left']
        omega
      · rintro longer hlonger hle ⟨d', hd'⟩
        exact hmatch.not_isSentence hlonger hle hd'

/-- A bracket that closes is reported behind `NOT`, and the second of two identifiers is left
over. -/
theorem parse_error_position_second :
    let a : Token := ⟨.ident, "a", 0⟩
    let b : Token := ⟨.ident, "b", 2⟩
    let no : Token := ⟨.not, "NOT", 0⟩
    let close : Token := ⟨.closeParen, ")", 4⟩
    (∃ offset found,
      (Parser.ofList [no, close]).parse = .error (.parse (.noMatch 1 offset found))) ∧
    Viable [no] ∧ ¬ Viable [no, close] ∧
    (∃ offset found,
      (Parser.ofList [a, b]).parse = .error (.parse (.trailingTokens 1 offset found))) ∧
    (∃ d : Derivation, d.IsSentence [a]) ∧ ¬ ∃ d : Derivation, d.IsSentence [a, b] := by
  intro a b no close
  obtain ⟨offset, found, hparse⟩ := @parse_not no [close] (by decide) rfl (by decide)
  obtain ⟨offset', found', hparse'⟩ := @parse_ident a b rfl (by decide)
  obtain ⟨-, hviable, hnot⟩ := (parse_error_position [no, close] 1 offset found).1 hparse
  obtain ⟨-, hsentence, hlongest⟩ := (parse_error_position [a, b] 1 offset' found').2 hparse'
  exact ⟨⟨offset, found, hparse⟩, hviable, hnot (by decide), ⟨offset', found', hparse'⟩, hsentence,
    hlongest 2 (by decide) (by decide)⟩

end Parser

end MessageSelector
