import TreePaths.Keymap.Access
import TreePaths.Projection.Basic

/-!
# Extraction from projected records

A keymap and a projection work together: records are projected, and what the keymap addresses is
then taken out of the result.
-/

namespace TreePaths

/-- Why an extraction is not possible. -/
inductive ExtractionError where
  | keymap (error : GrammarError)
  | projection (error : ProjectionError)
deriving DecidableEq

def ExtractionError.message : ExtractionError → String
  | keymap e => e.message
  | projection e => e.message

structure Extraction where
  /-- The records as the projection reshapes them. -/
  projected : Tree
  /-- What the keymap addresses there. -/
  taken : Tree
  /-- What is left when that is removed. -/
  left : Tree

/-- Reads a keymap and a projection, in this order, and takes what the keymap addresses out of the
projected records. -/
def Extraction.ofRecords (keymap : String) (projection : Tree) (records : List Tree) :
    Except ExtractionError Extraction := do
  let k ← (Keymap.parse keymap {}).mapError .keymap
  let p ← (Projection.ofTree projection {}).mapError .projection
  let projected := p.run records
  let (taken, left) := k.splice projected
  return ⟨projected, taken, left⟩

end TreePaths
