import MessageSelector.Proofs.Packrat

/-!
# Calls

How deep the rules nest that plain recognition calls (`Shallow`). A derivation holds the calls that
matched. Besides them only rules that call no rule themselves are called in vain (`misses`): the
table tells its alternatives apart by tokens and by such rules. So what recognition needs is read
off a derivation, as its number of nested calls (`calls`, `Derivation.Derives.shallow_iff`).
-/

namespace MessageSelector

open MessageSelector.Derivation (Derives)

/-- Plain recognition of a rule at a position stays within the number of rules that may nest, the
rule included. -/
def Shallow (tokens : List Token) : (room : Nat) → Rule → Nat → Prop
  | 0, _, _ => False
  | room + 1, r, p => ∀ (index : Nat) (a : Alternative), r.Tries tokens p index a →
    Admits tokens (Shallow tokens room) a.symbols p

/-! ## Calls in vain -/

namespace Symbol

def rule? : Symbol → Option Rule
  | rule r => some r
  | token _ => none

/-- The rule that the first symbols go on with where they leave the second ones. -/
def fork? : List Symbol → List Symbol → Option Rule
  | [], _ => none
  | x :: _, [] => x.rule?
  | x :: xs, y :: ys => if x = y then fork? xs ys else x.rule?

end Symbol

namespace Rule

/-- Whether the alternatives of a rule are made of tokens. -/
def isBare (r : Rule) : Bool :=
  r.alternatives.all fun a => a.symbols.all fun x => x.rule? = none

/-- One, if an alternative before the given one leaves it with a rule, which is called in vain. -/
def misses (r : Rule) (index : Nat) : Nat :=
  match r.alternatives[index]? with
  | none => 0
  | some a =>
    if (r.alternatives.take index).any fun b => (Symbol.fork? b.symbols a.symbols).isSome then 1
    else 0

/-- Alternatives leave each other only with rules that are made of tokens. -/
theorem forks (r : Rule) : r.alternatives.Pairwise fun b a =>
    (Symbol.fork? b.symbols a.symbols).all isBare := by
  cases r <;> decide

theorem misses_le (r : Rule) (index : Nat) : r.misses index ≤ 1 := by
  rw [misses]
  split
  · exact Nat.zero_le 1
  · split <;> decide

/-- Where the alternatives are made of tokens, none leaves another one with a rule. -/
theorem misses_of_isBare {r : Rule} (hr : r.isBare) (index : Nat) : r.misses index = 0 := by
  have hfork (ys : List Symbol) {xs : List Symbol} (h : ∀ x ∈ xs, x.rule? = none) :
      Symbol.fork? xs ys = none := by
    fun_induction Symbol.fork? xs ys with
    | case1 => rfl
    | case2 x xs => exact h x List.mem_cons_self
    | case3 xs y ys ih => exact ih fun z hz => h z (List.mem_cons_of_mem _ hz)
    | case4 x xs y ys hne => exact h x List.mem_cons_self
  rw [misses]
  split
  · rfl
  · next a _ =>
    rw [if_neg]
    simp only [List.any_eq_true, not_exists, not_and]
    intro b hb
    have htokens := List.all_eq_true.1 (List.all_eq_true.1 hr b (List.mem_of_mem_take hb))
    rw [hfork a.symbols fun x hx => of_decide_eq_true (htokens x hx)]
    decide

/-- A rule is called in vain if an earlier alternative leaves the given one with it. -/
theorem misses_eq_one {r : Rule} {index : Nat} {a : Alternative}
    (ha : r.alternatives[index]? = some a) : r.misses index = 1 ↔
      ∃ i b s, i < index ∧ r.alternatives[i]? = some b ∧
        Symbol.fork? b.symbols a.symbols = some s := by
  have hany : (r.alternatives.take index).any
      (fun b => (Symbol.fork? b.symbols a.symbols).isSome) = true ↔
      ∃ i b s, i < index ∧ r.alternatives[i]? = some b ∧
        Symbol.fork? b.symbols a.symbols = some s := by
    simp only [List.any_eq_true, List.mem_take_iff_getElem, Option.isSome_iff_exists]
    constructor
    · rintro ⟨b, ⟨i, hi, rfl⟩, s, hs⟩
      exact ⟨i, _, s, by omega, List.getElem?_eq_getElem (by omega), hs⟩
    · rintro ⟨i, b, s, hi, hb, hs⟩
      obtain ⟨hlt, rfl⟩ := List.getElem?_eq_some_iff.1 hb
      exact ⟨_, ⟨i, by omega, rfl⟩, s, hs⟩
  rw [← hany, misses, ha]
  dsimp only
  split
  · next h => exact iff_of_true rfl h
  · next h => exact iff_of_false (by decide) h

end Rule

namespace Derivation

/-- The greatest number of rules that nest while a derivation is found. -/
def calls : Derivation → Nat
  | done => 0
  | token _ rest => rest.calls
  | rule r index body rest => max (max body.calls (r.misses index) + 1) rest.calls

theorem height_le_calls (d : Derivation) : d.height ≤ d.calls := by
  induction d with
  | done => exact Nat.le_refl 0
  | token _ _ ih => exact ih
  | rule r index body rest ihbody ihrest =>
    simp only [height, calls]
    omega

end Derivation

namespace Admits

variable {tokens : List Token} {call : Rule → Nat → Prop} {p : Nat}

theorem of_tokens {symbols : List Symbol} (h : ∀ x ∈ symbols, x.rule? = none) :
    Admits tokens call symbols p := by
  induction symbols generalizing p with
  | nil => trivial
  | cons x symbols ih =>
    obtain ⟨hx, hsymbols⟩ := List.forall_mem_cons.1 h
    cases x with
    | token kind => exact fun _ _ _ => ih hsymbols
    | rule r => cases hx

/-- At a token that it cannot start with, a symbol makes one call at most. -/
theorem of_first {x : Symbol} {xs : List Symbol}
    (hfirst : ∀ t, tokens[p]? = some t → t.kind ∉ x.first)
    (hcall : ∀ s, x.rule? = some s → call s p) : Admits tokens call (x :: xs) p := by
  cases x with
  | token kind => exact fun t ht hk => absurd (by simp [Symbol.first, hk]) (hfirst t ht)
  | rule s =>
    refine ⟨hcall s rfl, fun stop d hd => ?_⟩
    obtain ⟨t, ht, hk⟩ := hd.first
    exact absurd hk (hfirst t ht)

/-- What is called where symbols leave those that match. -/
theorem fork {xs ys : List Symbol} {o : Nat × Derivation} {s : Rule}
    (h : Admits tokens call xs p) (hmatch : Recognizes tokens ys p (some o))
    (hfork : Symbol.fork? xs ys = some s) : ∃ q, call s q := by
  have hcall {x : Symbol} {xs : List Symbol} {p : Nat} (h : Admits tokens call (x :: xs) p)
      (hs : x.rule? = some s) : ∃ q, call s q := by
    cases x with
    | token kind => cases hs
    | rule r =>
      cases hs
      exact ⟨p, h.1⟩
  induction xs generalizing ys p o with
  | nil => cases hfork
  | cons x xs ih =>
    cases ys with
    | nil => exact hcall h hfork
    | cons y ys =>
      rw [Symbol.fork?] at hfork
      split at hfork
      · next heq =>
        subst heq
        cases hmatch with
        | token ht hk hrest => exact ih (h _ ht hk) hrest hfork
        | rule ha hfail hbody hrest =>
          exact ih (h.2 _ _ (.rule ha hfail hbody (.done _))) hrest hfork
      · exact hcall h hfork

/-- Symbols that the table separates from those that match make the same calls, and one where they
leave them. -/
theorem of_separates {blocked : List Token.Kind} {xs ys : List Symbol} {stop : Nat}
    {d : Derivation} (h : Admits tokens call ys p)
    (hmatch : Recognizes tokens ys p (some (stop, d))) (hsep : Symbol.separates blocked xs ys)
    (hnext : ∀ t, tokens[stop]? = some t → t.kind ∉ blocked)
    (hfork : ∀ s q, Symbol.fork? xs ys = some s → call s q) : Admits tokens call xs p := by
  induction xs generalizing ys p d with
  | nil => trivial
  | cons x xs ih =>
    cases ys with
    | nil =>
      cases hmatch
      simp only [Symbol.separates, List.all_eq_true, List.contains_iff_mem] at hsep
      exact of_first (fun t ht hk => hnext t ht (hsep _ hk)) fun s hs => hfork s _ hs
    | cons y ys =>
      rw [Symbol.separates] at hsep
      rw [Symbol.fork?] at hfork
      split at hsep
      · next heq =>
        subst heq
        simp only [↓reduceIte] at hfork
        cases hmatch with
        | token ht hk hrest => exact fun _ _ _ => ih (h _ ht hk) hrest hsep hfork
        | @rule r _ _ middle _ index a body rest ha hfail hbody hrest =>
          have hone : Recognizes tokens [.rule r] p (some (middle, .rule r index body .done)) :=
            .rule ha hfail hbody (.done _)
          refine ⟨h.1, fun stop' d' hd' => ?_⟩
          cases hone.unique hd'
          exact ih (h.2 _ _ hone) hrest hsep hfork
      · next hne =>
        rw [if_neg hne] at hfork
        obtain ⟨t, ht, hk⟩ := hmatch.first
        refine of_first (fun t' ht' hk' => ?_) fun s hs => hfork s p hs
        cases ht.symm.trans ht'
        exact absurd hk (by simpa using List.all_eq_true.1 hsep _ hk')

end Admits

/-! ## Derivations -/

theorem Shallow.pos {tokens : List Token} {room : Nat} {r : Rule} {p : Nat}
    (h : Shallow tokens room r p) : 1 ≤ room := by
  cases room with
  | zero => exact h.elim
  | succ room => exact Nat.le_add_left 1 room

theorem Shallow.of_isBare {tokens : List Token} {s : Rule} (hs : s.isBare) {room : Nat}
    (hroom : 1 ≤ room) (p : Nat) : Shallow tokens room s p := by
  obtain ⟨room, rfl⟩ := Nat.exists_eq_add_of_le' hroom
  intro index a htries
  have ha := List.all_eq_true.1 hs a (List.mem_of_getElem? htries.alternative)
  exact Admits.of_tokens fun x hx => of_decide_eq_true (List.all_eq_true.1 ha x hx)

/-- **Plain recognition of what is derived nests as deep as the derivation says.** -/
theorem Derivation.Derives.shallow_iff {tokens : List Token} {symbols : List Symbol}
    {d : Derivation} (h : Derives symbols d) {blocked : List Token.Kind}
    (hadj : Symbol.adjoins blocked symbols) {p : Nat} {after : List Token}
    (hp : tokens.drop p = d.yield ++ after)
    (hnext : ∀ t, after.head? = some t → t.kind ∉ blocked) {room : Nat} :
    Admits tokens (Shallow tokens room) symbols p ↔ d.calls ≤ room := by
  induction h generalizing blocked p after room with
  | done => exact iff_of_true trivial (Nat.zero_le room)
  | @token kind t symbols rest hk hrest ih =>
    obtain ⟨ht, hdrop⟩ := Recognizes.getElem?_of_drop hp
    have hrest : Admits tokens (Shallow tokens room) symbols (p + 1) ↔ rest.calls ≤ room :=
      ih (Recognizes.adjoins_tail hadj) hdrop hnext
    exact ⟨fun h => hrest.1 (h t ht hk), fun h _ _ _ => hrest.2 h⟩
  | @rule r index a symbols body rest ha hbody hrest ihbody ihrest =>
    rw [yield, List.append_assoc] at hp
    have hbehind := Recognizes.not_mem_blocks (x := .rule r) hrest hadj hnext
    have hadjBody := ((Rule.separated r).1 a (List.mem_of_getElem? ha)).1
    have hmatch := Recognizes.complete hbody hadjBody hp hbehind
    have hdrop : tokens.drop (p + body.yield.length) = rest.yield ++ after := by
      rw [← List.drop_drop, hp, List.drop_left]
    have hstop (t : Token) (ht : tokens[p + body.yield.length]? = some t) : t.kind ∉ r.blocks :=
      hbehind t (by rw [← hdrop, List.head?_drop, ht])
    have htries : r.Tries tokens p index a :=
      ⟨ha, fun i hi b hb =>
        Recognizes.fails_of_separates hmatch (Rule.separates_of_lt hi hb ha) hstop⟩
    have hone := Recognizes.rule ha htries.fails hmatch (.done _)
    have hbody (room : Nat) :
        Admits tokens (Shallow tokens room) a.symbols p ↔ body.calls ≤ room :=
      ihbody hadjBody hp hbehind
    have hrest : Admits tokens (Shallow tokens room) symbols (p + body.yield.length) ↔
        rest.calls ≤ room :=
      ihrest (Recognizes.adjoins_tail hadj) hdrop hnext
    rw [calls, Nat.max_le, ← hrest]
    refine and_congr ⟨fun h => ?_, fun h => ?_⟩ ⟨fun h => h _ _ hone, fun h stop d hd => ?_⟩
    · obtain ⟨room, rfl⟩ := Nat.exists_eq_add_of_le' h.pos
      have hcalls := (hbody room).1 (h index a htries)
      have hmisses : r.misses index ≤ room := by
        rcases Nat.le_one_iff_eq_zero_or_eq_one.1 (r.misses_le index) with hzero | hone
        · omega
        · -- An earlier alternative has made a call of its own.
          obtain ⟨i, b, s, hi, hb, hs⟩ := (Rule.misses_eq_one ha).1 hone
          have htriesb : r.Tries tokens p i b :=
            ⟨hb, fun j hj => htries.fails j (Nat.lt_trans hj hi)⟩
          obtain ⟨q, hq⟩ := (h i b htriesb).fork hmatch hs
          have := hq.pos
          omega
      omega
    · obtain ⟨room, rfl⟩ : ∃ n, room = n + 1 := ⟨room - 1, by omega⟩
      have hadmits := (hbody room).2 (by omega)
      intro i b htriesb
      have hb := htriesb.alternative
      rcases Nat.lt_or_eq_of_le (htriesb.le_of_match ha hmatch) with hlt | rfl
      · refine hadmits.of_separates hmatch (Rule.separates_of_lt hlt hb ha) hstop fun s q hs => ?_
        have hbare : s.isBare := by
          simpa [hs] using Rule.pairwise_getElem? (Rule.forks r) hlt hb ha
        have hmisses := (Rule.misses_eq_one ha).2 ⟨i, b, s, hlt, hb, hs⟩
        exact .of_isBare hbare (by omega) q
      · cases ha.symm.trans hb
        exact hadmits
    · cases hone.unique hd
      exact h

/-- Plain recognition of a whole selector nests as deep as its derivation says. -/
theorem Derivation.IsSentence.shallow_iff {tokens : List Token} {d : Derivation}
    (h : d.IsSentence tokens) {room : Nat} :
    Shallow tokens room Rule.root 0 ↔ d.calls ≤ room := by
  have hadj : Symbol.adjoins Rule.root.blocks [.rule Rule.root] := by decide
  have hall : tokens.drop 0 = d.yield ++ [] := by
    rw [h.yield_eq, List.append_nil, List.drop_zero]
  rw [← h.derives.shallow_iff hadj hall (by simp)]
  exact ⟨fun h => ⟨h, fun _ _ _ => trivial⟩, And.left⟩

end MessageSelector
