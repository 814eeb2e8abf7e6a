import MessageSelector.Proofs.Calls
import MessageSelector.Proofs.Sessions

/-!
# Locality

Plain recognition looks at no token before the position where it starts. So where the same tokens
are left, the same derivation is found (`Recognizes.relocate`, `Finds.relocate`), and the same calls
nest while it is found (`Shallow.relocate`).
-/

namespace MessageSelector

variable {tokens tokens' : List Token} {p p' : Nat}

theorem getElem?_of_drop_eq (h : tokens.drop p = tokens'.drop p') : tokens[p]? = tokens'[p']? := by
  rw [← List.head?_drop, h, List.head?_drop]

/-- The same tokens are left behind as many more. -/
theorem drop_add_eq (h : tokens.drop p = tokens'.drop p') (n : Nat) :
    tokens.drop (p + n) = tokens'.drop (p' + n) := by
  rw [← List.drop_drop, h, List.drop_drop]

/-- What is found, where it is found at another position. -/
def relocated (p' : Nat) (o : Option (Nat × Derivation)) : Option (Nat × Derivation) :=
  o.map fun found => (p' + found.2.yield.length, found.2)

/-- Where the same tokens are left, plain recognition finds the same. -/
theorem Recognizes.relocate {symbols : List Symbol} {o : Option (Nat × Derivation)}
    (h : Recognizes tokens symbols p o) (hleft : tokens.drop p = tokens'.drop p') :
    Recognizes tokens' symbols p' (relocated p' o) := by
  induction h generalizing p' with
  | done p => exact .done p'
  | @token kind symbols p stop t rest ht hk _ ih =>
    have hrest := ih (drop_add_eq hleft 1)
    have hstop : p' + 1 + rest.yield.length = p' + (Derivation.token t rest).yield.length := by
      simp only [Derivation.yield, List.length_cons]
      omega
    simp only [relocated, Option.map_some, hstop] at hrest
    exact .token (getElem?_of_drop_eq hleft ▸ ht) hk hrest
  | tokenThen ht hk _ ih =>
    exact .tokenThen (getElem?_of_drop_eq hleft ▸ ht) hk (ih (drop_add_eq hleft 1))
  | mismatch hne =>
    apply Recognizes.mismatch
    rw [← getElem?_of_drop_eq hleft]
    exact hne
  | @rule r symbols p middle stop index a body rest ha _ hbody hrest ihfail ihbody ihrest =>
    have hmiddle := hbody.sound.2.2
    subst hmiddle
    have hrest := ihrest (drop_add_eq hleft _)
    have hstop : p' + body.yield.length + rest.yield.length =
        p' + (Derivation.rule r index body rest).yield.length := by
      simp only [Derivation.yield, List.length_append]
      omega
    simp only [relocated, Option.map_some, hstop] at hrest
    exact .rule ha (fun i hi b hb => ihfail i hi b hb hleft) (ihbody hleft) hrest
  | @ruleThen r symbols p middle index a body ha _ hbody _ ihfail ihbody ihrest =>
    have hmiddle := hbody.sound.2.2
    subst hmiddle
    exact .ruleThen ha (fun i hi b hb => ihfail i hi b hb hleft) (ihbody hleft)
      (ihrest (drop_add_eq hleft _))
  | failure _ ih => exact .failure fun i b hb => ih i b hb hleft

theorem Finds.relocate {r : Rule} {o : Option Match} (h : Finds tokens r p o)
    (hleft : tokens.drop p = tokens'.drop p') :
    Finds tokens' r p' (o.map fun m => { m with stop := p' + (m.stop - p) }) := by
  cases o with
  | none => exact Recognizes.relocate h hleft
  | some m =>
    obtain ⟨body, hbody⟩ := h
    have hstop : m.stop - p = (Derivation.rule r m.alternative body .done).yield.length := by
      rw [hbody.sound.2.2, Nat.add_sub_cancel_left]
    refine ⟨body, ?_⟩
    dsimp only
    rw [hstop]
    exact hbody.relocate hleft

theorem Rule.Tries.relocate {r : Rule} {index : Nat} {a : Alternative}
    (h : r.Tries tokens p index a) (hleft : tokens.drop p = tokens'.drop p') :
    r.Tries tokens' p' index a := by
  refine ⟨h.alternative, ?_⟩
  intro i hi b hb
  exact (h.fails i hi b hb).relocate hleft

theorem Admits.relocate {call call' : Rule → Nat → Prop} {symbols : List Symbol}
    (h : Admits tokens call symbols p) (hleft : tokens.drop p = tokens'.drop p')
    (hcall : ∀ r q q', tokens.drop q = tokens'.drop q' → call r q → call' r q') :
    Admits tokens' call' symbols p' := by
  induction symbols generalizing p p' with
  | nil => trivial
  | cons x symbols ih =>
    cases x with
    | token kind =>
      intro t ht hk
      exact ih (h t (getElem?_of_drop_eq hleft ▸ ht) hk) (drop_add_eq hleft 1)
    | rule r =>
      refine ⟨hcall r p p' hleft h.1, ?_⟩
      intro stop d hd
      -- The match stands at the first position as well, since the same tokens are left there.
      have hback := hd.relocate hleft.symm
      have hstop := hd.sound.2.2
      subst hstop
      exact ih (h.2 _ d hback) (drop_add_eq hleft _)

/-- Where the same tokens are left, the same calls nest. -/
theorem Shallow.relocate {room : Nat} {r : Rule} (h : Shallow tokens room r p)
    (hleft : tokens.drop p = tokens'.drop p') : Shallow tokens' room r p' := by
  induction room generalizing r p p' with
  | zero => exact h.elim
  | succ room ih =>
    intro index a htries
    have hadmits := h index a (htries.relocate hleft.symm)
    exact hadmits.relocate hleft fun s q q' hq hs => ih hs hq

end MessageSelector
