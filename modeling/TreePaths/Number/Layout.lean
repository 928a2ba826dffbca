import TreePaths.Number.Shortest

/-!
# Text of a floating-point number

The shortest digits of a number are laid out so that the text is never mistaken for an integer. With
the first digit at a power of ten from -5 to 15 the text is plain, with a digit on each side of the
point (`100.0`, `0.00001`); otherwise it is scientific, with the sign of the exponent always written
and no point after a single digit (`1e+16`, `1.5e-7`).
-/

namespace TreePaths

namespace Layout

/-- Digits without the zeros at their end, and how many zeros there were. -/
def trim (digits : List Char) : List Char × Nat :=
  let zeros := digits.reverse.takeWhile (· = '0')
  (digits.take (digits.length - zeros.length), zeros.length)

/-- The text in which `point` digits stand before the point, for a `point` that may lie outside the
digits. -/
def plain (digits : List Char) (point : Int) : List Char :=
  if point ≤ 0 then
    ['0', '.'] ++ List.replicate (-point).toNat '0' ++ digits
  else if digits.length ≤ point.toNat then
    digits ++ List.replicate (point.toNat - digits.length) '0' ++ ['.', '0']
  else
    digits.take point.toNat ++ ['.'] ++ digits.drop point.toNat

/-- The text with one digit before the point and the power of ten of that digit. -/
def scientific (digits : List Char) (power : Int) : List Char :=
  let sign := if power < 0 then '-' else '+'
  let mantissa := match digits with
    | [] => []
    | [d] => [d]
    | d :: ds => d :: '.' :: ds
  mantissa ++ ['e', sign] ++ Nat.toDigits 10 power.natAbs

end Layout

/-- The characters of the text of a positive decimal number. -/
def Decimal.chars (d : Decimal) : List Char :=
  let (digits, zeros) := Layout.trim (Nat.toDigits 10 d.digits)
  let point : Int := digits.length + zeros + d.exponent
  if -5 ≤ point - 1 ∧ point - 1 ≤ 15 then
    Layout.plain digits point
  else
    Layout.scientific digits (point - 1)

/-- The shortest text of a floating-point number. -/
def Binary64.text (x : Binary64) : String :=
  let magnitude := if x.significand = 0 then ['0', '.', '0'] else x.shortest.chars
  String.ofList (if x.negative then '-' :: magnitude else magnitude)

example : (Binary64.zero true).text = "-0.0" := by decide +kernel

example : (Binary64.nearest? true 3 2).map Binary64.text = some "-1.5" := by decide +kernel

example : (Binary64.nearest? false (10 ^ 15) 1).map Binary64.text = some "1000000000000000.0" := by
  decide +kernel

example : (Binary64.nearest? false (10 ^ 16) 1).map Binary64.text = some "1e+16" := by
  decide +kernel

example : (Binary64.nearest? false 1 (10 ^ 5)).map Binary64.text = some "0.00001" := by
  decide +kernel

example : (Binary64.nearest? false 1 (2 ^ 1074)).map Binary64.text = some "5e-324" := by
  decide +kernel

end TreePaths
