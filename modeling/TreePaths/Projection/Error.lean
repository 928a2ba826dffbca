import TreePaths.Text.Quoted

/-!
# Errors of projections

A tree is not a projection if a leaf of it is not a text, or if its containers are nested more
deeply than allowed. The first error tells where the leaf stands: under which key, under which
index, or nowhere if it is the whole tree.
-/

namespace TreePaths

/-- Why a tree is not a projection. -/
inductive ProjectionError where
  /-- A leaf of the given kind stands where a text has to. -/
  | notText (kind : String) (place : String)
  | tooDeep (limit : Nat)
deriving DecidableEq

def ProjectionError.message : ProjectionError → String
  | notText kind place =>
    "Map can only contain string, mapping or sequence values. Got " ++ kind ++ " at " ++
      Text.quoted place
  | tooDeep limit => "Projection map nesting exceeds " ++ limit.repr ++ " levels"

end TreePaths
