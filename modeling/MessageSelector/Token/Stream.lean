import MessageSelector.Token

/-!
# Token streams

A stream is a sequence of tokens with a cursor. Only the cursor moves, so going back to an earlier
position is always possible.
-/

namespace MessageSelector

/-- A sequence of tokens and a position in it. -/
structure TokenStream where
  tokens : Array Token
  position : Nat
deriving Repr

namespace TokenStream

def ofList (tokens : List Token) : TokenStream :=
  ⟨tokens.toArray, 0⟩

/-- The number of tokens, read or not. -/
def size (s : TokenStream) : Nat :=
  s.tokens.size

def isEmpty (s : TokenStream) : Bool :=
  s.tokens.isEmpty

def get? (s : TokenStream) (position : Nat) : Option Token :=
  s.tokens[position]?

def peek? (s : TokenStream) : Option Token :=
  s.get? s.position

def hasMore (s : TokenStream) : Bool :=
  s.position < s.size

/-- The stream with its cursor at a position, or at the end if there is no such position. -/
def reset (s : TokenStream) (position : Nat) : TokenStream :=
  { s with position := min position s.size }

/-- The token under the cursor and the stream behind it. -/
def next? (s : TokenStream) : Option (Token × TokenStream) :=
  s.peek?.map fun t => (t, { s with position := s.position + 1 })

end TokenStream

end MessageSelector
