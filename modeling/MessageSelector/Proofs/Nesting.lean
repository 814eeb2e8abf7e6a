import MessageSelector.Proofs.Calls

/-!
# Nesting

How deep a rule is called is determined by the tokens before the call (`depthAt`): every bracket
opens a level of its own, and inside a level each operator moves the rules below it one further
down. So an answer that is read from the memo was found at the depth at which it is asked for
(`nested`, a `Discipline`), and what is recognized with a memo within the limit is recognized
without one within it.
-/

namespace MessageSelector

open MessageSelector.Derivation (Derives)

/-- The depths at which the rules of chains are called inside the innermost bracket, and whether the
next `AND` belongs to `BETWEEN`. -/
structure Level where
  base : Nat
  orDepth : Nat
  andDepth : Nat
  plusDepth : Nat
  multDepth : Nat
  between : Bool

namespace Level

/-- The level of a bracket whose contents are called at a depth. -/
def fresh (base : Nat) : Level :=
  ⟨base, base + 1, base + 2, base + 6, base + 7, false⟩

/-- The level at the start of a sum. -/
def startSum (l : Level) (between : Bool) : Level :=
  { l with plusDepth := l.andDepth + 4, multDepth := l.andDepth + 5, between }

end Level

/-- What the tokens before a position say of the calls at it. -/
structure Nesting where
  level : Level
  /-- The levels around the innermost bracket. -/
  outer : List Level
  operand : Bool

namespace Nesting

def start : Nesting :=
  ⟨.fresh 0, [], true⟩

/-- The nesting behind a token. -/
def after (s : Nesting) : Token.Kind → Nesting
  | .openParen => ⟨.fresh (s.level.multDepth + 3), s.level :: s.outer, true⟩
  | .closeParen =>
    match s.outer with
    | level :: outer => ⟨level, outer, false⟩
    | [] => { s with operand := false }
  | .or =>
    let level := { s.level with orDepth := s.level.orDepth + 1, andDepth := s.level.orDepth + 2 }
    { s with level := level.startSum false, operand := true }
  | .and =>
    let andDepth := if s.level.between then s.level.andDepth else s.level.andDepth + 1
    let level := { s.level with andDepth }
    { s with level := level.startSum false, operand := true }
  | .equal | .notEqual | .less | .lessOrEqual | .greater | .greaterOrEqual =>
    { s with level := s.level.startSum s.level.between, operand := true }
  | .between | .notBetween => { s with level := s.level.startSum true, operand := true }
  | .plus | .minus =>
    -- In front of an operand it is a sign.
    if s.operand then s
    else
      let plusDepth := s.level.plusDepth + 1
      { s with level := { s.level with plusDepth, multDepth := plusDepth + 1 }, operand := true }
  | .times | .divide =>
    { s with level := { s.level with multDepth := s.level.multDepth + 1 }, operand := true }
  | .comma => { s with level := { s.level with base := s.level.base + 1 } }
  | .not => s
  | _ => { s with operand := false }

def run (s : Nesting) (tokens : List Token) : Nesting :=
  tokens.foldl (fun s t => s.after t.kind) s

theorem run_append (s : Nesting) (tokens more : List Token) :
    s.run (tokens ++ more) = (s.run tokens).run more :=
  List.foldl_append

def before (tokens : List Token) (p : Nat) : Nesting :=
  start.run (tokens.take p)

theorem before_succ {tokens : List Token} {p : Nat} {t : Token} (h : tokens[p]? = some t) :
    before tokens (p + 1) = (before tokens p).after t.kind := by
  obtain ⟨hp, rfl⟩ := List.getElem?_eq_some_iff.1 h
  rw [before, ← List.take_append_getElem hp, run_append]
  rfl

end Nesting

namespace Rule

/-- The depth at which a rule is called. -/
def depthAt (s : Nesting) : Rule → Nat
  | expr | stringList => s.level.base
  | orExpr => s.level.orDepth
  | andExpr => s.level.andDepth
  | notExpr => s.level.andDepth + 1
  | cmpExpr => s.level.andDepth + 2
  | arith | cmpOp => s.level.andDepth + 3
  | plusExpr => s.level.plusDepth
  | addOp => if s.operand then s.level.multDepth + 2 else s.level.plusDepth + 1
  | multExpr => s.level.multDepth
  | signExpr | mulOp => s.level.multDepth + 1
  | simple => s.level.multDepth + 2
  | pattern | number => s.level.multDepth + 3

/-- What holds where a rule is called. -/
def Ready (s : Nesting) : Rule → Prop
  | expr => s.operand ∧ s.level = .fresh s.level.base
  | orExpr =>
    s.operand ∧ s.level.andDepth = s.level.orDepth + 1 ∧ s.level.startSum false = s.level
  | andExpr | notExpr | cmpExpr => s.operand ∧ s.level.startSum false = s.level
  | arith => s.operand ∧ s.level.startSum s.level.between = s.level
  | plusExpr => s.operand ∧ s.level.multDepth = s.level.plusDepth + 1
  | multExpr | signExpr | simple => s.operand
  | cmpOp | mulOp | addOp | pattern | stringList | number => True

/-- What a match of a rule does to the nesting. -/
def Done (s s' : Nesting) : Rule → Prop
  | expr | orExpr | stringList => s'.outer = s.outer ∧ s'.operand = false
  | andExpr => s'.outer = s.outer ∧ s'.operand = false ∧ s'.level.orDepth = s.level.orDepth
  | notExpr | cmpExpr =>
    s'.outer = s.outer ∧ s'.operand = false ∧ s'.level.orDepth = s.level.orDepth ∧
      s'.level.andDepth = s.level.andDepth ∧ s'.level.between = false
  | arith | plusExpr =>
    s'.outer = s.outer ∧ s'.operand = false ∧ s'.level.orDepth = s.level.orDepth ∧
      s'.level.andDepth = s.level.andDepth ∧ s'.level.between = s.level.between
  | multExpr =>
    s'.outer = s.outer ∧ s'.operand = false ∧ s'.level.orDepth = s.level.orDepth ∧
      s'.level.andDepth = s.level.andDepth ∧ s'.level.between = s.level.between ∧
      s'.level.plusDepth = s.level.plusDepth
  | signExpr | simple | pattern | number => s' = { s with operand := false }
  | cmpOp => s' = s.after .equal
  | addOp => s' = s.after .plus
  | mulOp => s' = s.after .times

end Rule

/-- Matching symbols calls their rules where they are ready and one below the given depth, and ends
where the fact holds. -/
def Symbol.Flows (depth : Nat) (post : Nesting → Prop) : List Symbol → Nesting → Prop
  | [], s => post s
  | .token kind :: symbols, s => Flows depth post symbols (s.after kind)
  | .rule r :: symbols, s =>
    r.Ready s ∧ r.depthAt s = depth + 1 ∧ ∀ s', r.Done s s' → Flows depth post symbols s'

open MessageSelector.Symbol (Flows)

/-- The table keeps what is said of calls and matches: an alternative of a rule that is ready calls
only rules that are ready, each one below the rule, and does to the nesting what the rule does. -/
theorem Rule.flows {r : Rule} {a : Alternative} {s : Nesting} (ha : a ∈ r.alternatives)
    (hs : r.Ready s) : Flows (r.depthAt s) (fun s' => r.Done s s') a.symbols s := by
  cases r <;> simp only [Rule.alternatives, List.mem_cons, List.not_mem_nil, or_false] at ha
  all_goals
    rcases ha with rfl | rfl | rfl | rfl | rfl | rfl | rfl | rfl | rfl | rfl | rfl | rfl
    all_goals
      simp only [Flows, Rule.Ready, Rule.depthAt, Rule.Done, Nesting.after, Level.startSum,
        Level.fresh] at hs ⊢
    all_goals grind

namespace Derivation

/-- The tokens of a derivation do to the nesting what its symbols do. -/
theorem Derives.flows {symbols : List Symbol} {d : Derivation} (h : Derives symbols d)
    {depth : Nat} {post : Nesting → Prop} {s : Nesting} (hs : Flows depth post symbols s) :
    post (s.run d.yield) := by
  induction h generalizing depth post s with
  | done => exact hs
  | @token kind t symbols rest hk _ ih =>
    subst hk
    exact ih hs
  | @rule r index a symbols body rest ha _ _ ihbody ihrest =>
    obtain ⟨hready, -, hrest⟩ := hs
    -- The body leaves the nesting as the rule does, and the rest goes on from there.
    have hdone := ihbody (Rule.flows (List.mem_of_getElem? ha) hready)
    rw [yield, Nesting.run_append]
    exact ihrest (hrest _ hdone)

/-- The tokens of a derivation of a rule do to the nesting what the rule does. -/
theorem Derives.done_rule {r : Rule} {d : Derivation} (h : Derives [.rule r] d) {s : Nesting}
    (hs : r.Ready s) : r.Done s (s.run d.yield) := by
  cases h with
  | rule ha hbody hrest =>
    cases hrest
    have hdone := hbody.flows (Rule.flows (List.mem_of_getElem? ha) hs)
    rwa [yield, yield, List.append_nil]

end Derivation

namespace Recognizes

variable {tokens : List Token}

/-- The nesting behind a match is the one before it, and then its tokens. -/
theorem before_eq {symbols : List Symbol} {p stop : Nat} {d : Derivation}
    (h : Recognizes tokens symbols p (some (stop, d))) :
    Nesting.before tokens stop = (Nesting.before tokens p).run d.yield := by
  obtain ⟨-, hy, hstop⟩ := h.sound
  rw [Nesting.before, Nesting.before, ← Nesting.run_append, hstop, List.take_add, hy,
    List.take_left]

end Recognizes

/-! ## Derivations within the limit -/

namespace Discipline

variable {tokens : List Token}

/-- Where matching symbols from a position on flows, the calls it makes are at the depth that the
tokens before them determine. -/
theorem admits_of_flows {room depth : Nat} {post : Nesting → Prop} {symbols : List Symbol} {p : Nat}
    (h : Flows depth post symbols (Nesting.before tokens p)) (hroom : room + depth = maxRuleDepth) :
    Admits tokens (fun r q => r.Ready (Nesting.before tokens q) ∧
      room + r.depthAt (Nesting.before tokens q) = maxRuleDepth + 1) symbols p := by
  induction symbols generalizing p with
  | nil => trivial
  | cons x symbols ih =>
    cases x with
    | token kind =>
      rintro t ht rfl
      refine ih ?_
      rw [Nesting.before_succ ht]
      exact h
    | rule r =>
      obtain ⟨hready, hdepth, hrest⟩ := h
      refine ⟨⟨hready, by omega⟩, fun stop d hd => ih ?_⟩
      rw [hd.before_eq]
      exact hrest _ (hd.sound.1.done_rule hready)

/-- The depth of a call is determined by the tokens before it, and what is called for an answer
stays within the limit, also where the answer is read from the memo. -/
def nested (tokens : List Token) : Discipline tokens where
  call room r p :=
    r.Ready (Nesting.before tokens p) ∧
      room + r.depthAt (Nesting.before tokens p) = maxRuleDepth + 1
  keep r p := ∀ room, room + r.depthAt (Nesting.before tokens p) = maxRuleDepth + 1 →
    Shallow tokens room r p
  admits := by
    rintro room r p index a ⟨hready, hdepth⟩ htries
    exact admits_of_flows (Rule.flows (List.mem_of_getElem? htries.alternative) hready) (by omega)
  keeps := by
    rintro room r p ⟨-, hdepth⟩ hkept room' hroom'
    obtain rfl : room' = room + 1 := by omega
    intro index a htries
    exact (hkept index a htries).mono fun s q hcall => hcall.2 room hcall.1.2

end Discipline

end MessageSelector
