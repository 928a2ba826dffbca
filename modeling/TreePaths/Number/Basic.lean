import TreePaths.Number.Layout

/-!
# Numbers

A number is an integer or a floating-point number, and the two never mix: an integer and a
floating-point number of one value are different numbers, with different texts.
-/

namespace TreePaths

/-- A number as a document holds it. -/
inductive Number where
  /-- An integer. Reading yields integers from `-2 ^ 63` up to but not including `2 ^ 64`. -/
  | integer (value : Int)
  /-- A finite floating-point number. -/
  | real (value : Binary64)
deriving DecidableEq

namespace Number

/-- The text of a number, from which its kind can be told. -/
def text : Number → String
  | integer i => i.repr
  | real x => x.text

/-- Equality of numbers: within one kind only, and the two zeros of the second kind are equal. -/
def same : Number → Number → Bool
  | integer i, integer j => i = j
  | real x, real y => x.same y
  | _, _ => false

theorem same_refl (n : Number) : same n n = true := by
  cases n with
  | integer i => simp [same]
  | real x => exact x.same_refl

end Number

end TreePaths
