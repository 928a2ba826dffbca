import TreePaths.Tree.Basic

/-!
# Options

Reading a path expression and reading a projection are limited in how deeply brackets or containers
may be nested. Each has its options, with a standard limit of its own, and options are given as a
tree: a mapping, of which only the limit is looked at, or a sequence of at most the limit. The limit
is an integer that 64 bits hold without a sign.
-/

namespace TreePaths

/-- Options for reading path expressions. -/
structure PathOptions where
  /-- The number of levels to which brackets may be nested. -/
  maxDepth : Nat := 32
deriving DecidableEq

/-- Options for reading projections. -/
structure ProjectionOptions where
  /-- The number of levels to which containers may be nested in the outermost one. -/
  maxDepth : Nat := 64
deriving DecidableEq

namespace Options

/-- The natural number of 64 bits that a tree is. -/
def word? : Tree → Option Nat
  | .scalar (.number (.integer (.ofNat n))) => if n < Decimal.wordSize then some n else none
  | _ => none

/-- The limit that a tree of options gives, which is `standard` if it gives none. -/
def maxDepth? (standard : Nat) : Tree → Option Nat
  | .mapping es =>
    match Entries.lookup "max_depth" es with
    | none => some standard
    | some t => word? t
  | .sequence [] => some standard
  | .sequence [t] => word? t
  | _ => none

def toTree (maxDepth : Nat) : Tree := .mapping [("max_depth", .ofInt maxDepth)]

theorem maxDepth?_toTree {n : Nat} (h : n < Decimal.wordSize) (standard : Nat) :
    maxDepth? standard (toTree n) = some n := by
  simp [maxDepth?, toTree, Entries.lookup_cons, word?, Tree.ofInt, h]

end Options

def PathOptions.ofTree? (t : Tree) : Option PathOptions :=
  (Options.maxDepth? ({} : PathOptions).maxDepth t).map PathOptions.mk

def PathOptions.toTree (o : PathOptions) : Tree := Options.toTree o.maxDepth

def ProjectionOptions.ofTree? (t : Tree) : Option ProjectionOptions :=
  (Options.maxDepth? ({} : ProjectionOptions).maxDepth t).map ProjectionOptions.mk

def ProjectionOptions.toTree (o : ProjectionOptions) : Tree := Options.toTree o.maxDepth

end TreePaths
