import TreePaths.Number.Binary64

/-!
# Floating-point values

A `Double` is a finite floating-point number, an infinity, or no number at all. It is read from text
with a single rounding: an optional sign, then the word for an infinity or for no number in any case
of letters, or decimal digits with an optional point among or around them and an optional exponent.
A text whose value is too large is read as an infinity.
-/

namespace TreePaths

/-- A floating-point value of 64 bits. -/
inductive Double where
  | finite (value : Binary64)
  | infinite (negative : Bool)
  | nan
deriving DecidableEq

namespace Double

/-- The value nearest to `± n * 10 ^ e`. Its magnitude is at least `2 ^ size` for `0 ≤ e` and below
`2 ^ (size + 1)` for `e < 0`, so that an exponent far outside the range is not expanded. -/
def ofScaled (negative : Bool) (n : Nat) (e : Int) : Double :=
  let size : Int := n.log2 + 3 * e
  if n = 0 ∨ (e < 0 ∧ size < -1100) then finite (Binary64.zero negative)
  else if 0 ≤ e ∧ 1100 < size then infinite negative
  else
    match Binary64.nearest? negative (n * Nat.pow 10 e.toNat) (Nat.pow 10 (-e).toNat) with
    | some x => finite x
    | none => infinite negative

/-- The exponent that follows the digits of a text. -/
def exponent? : List Char → Option Int
  | [] => some 0
  | c :: cs =>
    if c = 'e' ∨ c = 'E' then
      let (negative, cs) : Bool × List Char := match cs with
        | '-' :: cs => (true, cs)
        | '+' :: cs => (false, cs)
        | cs => (false, cs)
      if cs ≠ [] ∧ cs.all Char.isDigit then
        let n : Int := Nat.ofDigitChars 10 cs 0
        some (if negative then -n else n)
      else none
    else none

/-- The value of an unsigned text of digits. -/
def ofDigits? (negative : Bool) (cs : List Char) : Option Double :=
  let whole := cs.takeWhile Char.isDigit
  let rest := cs.dropWhile Char.isDigit
  let (fraction, rest) : List Char × List Char := match rest with
    | '.' :: rest => (rest.takeWhile Char.isDigit, rest.dropWhile Char.isDigit)
    | rest => ([], rest)
  let digits := whole ++ fraction
  if digits = [] then none
  else (exponent? rest).map fun e =>
    ofScaled negative (Nat.ofDigitChars 10 digits 0) (e - fraction.length)

/-- The value of an unsigned text. -/
def ofUnsigned? (negative : Bool) (cs : List Char) : Option Double :=
  let word := String.ofList (cs.map Char.toLower)
  if word = "inf" ∨ word = "infinity" then some (infinite negative)
  else if word = "nan" then some nan
  else ofDigits? negative cs

def ofText? (text : String) : Option Double :=
  match text.toList with
  | '-' :: cs => ofUnsigned? true cs
  | '+' :: cs => ofUnsigned? false cs
  | cs => ofUnsigned? false cs

end Double

end TreePaths
