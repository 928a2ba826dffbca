import TreePaths.Json.Token

/-!
# Reading JSON

A tree is read from tokens by a machine with a stack. A `Frame` holds what is known of a container
that is still open, and a `State` says what may come next. A key that is repeated in one mapping
replaces the value and keeps the first place. Containers may be nested up to a limit.

A text is the JSON of a tree if it holds exactly one value, with nothing but blanks around it.
-/

namespace TreePaths.Json

/-- A container that is open around the value being read. -/
inductive Frame where
  /-- A sequence, with its elements so far, the last one first. -/
  | element (before : List Tree)
  /-- A mapping, with its entries so far and the key whose value is being read. -/
  | entry (before : Entries Tree) (key : String)

/-- What may come next, with the containers that are open, the innermost first. -/
inductive State where
  | value (stack : List Frame)
  /-- The first element of a sequence, or its end. -/
  | firstElement (stack : List Frame)
  /-- The first key of a mapping, or its end. -/
  | firstKey (stack : List Frame)
  | nextKey (before : Entries Tree) (stack : List Frame)
  | colon (before : Entries Tree) (key : String) (stack : List Frame)
  /-- What follows a complete value. -/
  | after (value : Tree) (stack : List Frame)

/-- The state after the first token of a value. -/
def State.start (limit : Nat) (stack : List Frame) : Token → Option State
  | .atom t => some (.after t stack)
  | .text s => some (.after (.ofText s) stack)
  | .sequenceStart => if stack.length < limit then some (.firstElement stack) else none
  | .mappingStart => if stack.length < limit then some (.firstKey stack) else none
  | _ => none

/-- The state after a token. -/
def State.step (limit : Nat) : State → Token → Option State
  | .value stack, token => start limit stack token
  | .firstElement stack, .sequenceEnd => some (.after (.sequence []) stack)
  | .firstElement stack, token => start limit (.element [] :: stack) token
  | .firstKey stack, .mappingEnd => some (.after .empty stack)
  | .firstKey stack, .text k => some (.colon [] k stack)
  | .nextKey es stack, .text k => some (.colon es k stack)
  | .colon es k stack, .colon => some (.value (.entry es k :: stack))
  | .after t (.element ts :: stack), .comma => some (.value (.element (t :: ts) :: stack))
  | .after t (.element ts :: stack), .sequenceEnd =>
    some (.after (.sequence (t :: ts).reverse) stack)
  | .after t (.entry es k :: stack), .comma => some (.nextKey (Entries.insert k t es) stack)
  | .after t (.entry es k :: stack), .mappingEnd =>
    some (.after (.mapping (Entries.insert k t es)) stack)
  | _, _ => none

/-- The value of a complete run. -/
def State.result? : State → Option Tree
  | .after t [] => some t
  | _ => none

def ofTokens? (limit : Nat) (tokens : List Token) : Option Tree :=
  (tokens.foldlM (State.step limit) (.value [])).bind State.result?

/-- The number of containers that may be nested in a document. -/
def nestingLimit : Nat := 127

end TreePaths.Json

namespace TreePaths

/-- The tree that a JSON text stands for, with at most `limit` containers around each other. -/
def Tree.ofJson? (text : String) (limit : Nat) : Option Tree :=
  (Json.tokens? text.toList).bind (Json.ofTokens? limit)

end TreePaths
