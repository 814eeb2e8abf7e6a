import MessageSelector.Node.Build
import MessageSelector.Recognition

/-!
# Construction

The second pass of the parser. It walks what recognition remembers from a rule at a position down
and builds the node of each match on the way. A match that is missing or does not fit the table of
the grammar is a defect.

The number of matches that may nest bounds the recursion. What recognition remembers of some tokens
never nests more than eleven matches for each of them.
-/

namespace MessageSelector

/-- The match remembered for a rule at a position. -/
def Memo.matched (memo : Memo) (rule : Rule) (position : Nat) : Except Defect Match :=
  match memo.entries[(rule, position)]? with
  | some (some found) => .ok found
  | _ => .error (.notRecognized rule position)

namespace Construction

/-- Builds the nodes of symbols that were recognized from a position on, those of sub-rules by
`sub`. -/
def symbols (s : TokenStream) (memo : Memo) (sub : Rule → Nat → Except Defect Node) :
    List Symbol → Nat → Except Defect (List Node)
  | [], _ => .ok []
  | .token _ :: rest, position =>
    match s.get? position with
    | none => .error (.noToken position)
    | some token => do
      let nodes ← symbols s memo sub rest (position + 1)
      return .leaf 0 token :: nodes
  | .rule rule :: rest, position => do
    let node ← sub rule position
    let found ← memo.matched rule position
    let nodes ← symbols s memo sub rest found.stop
    return node :: nodes

/-- Builds the node of a rule that was recognized at a position, where `room` matches may nest,
itself included. -/
def rule (s : TokenStream) (memo : Memo) : (room : Nat) → Rule → Nat → Except Defect Node
  | 0, r, position => .error (.notRecognized r position)
  | room + 1, r, position => do
    let found ← memo.matched r position
    match r.alternatives[found.alternative]? with
    | none => .error (.noAlternative r found.alternative)
    | some alternative =>
      let children ← symbols s memo (rule s memo room) alternative.symbols position
      alternative.action.build children

end Construction

end MessageSelector
