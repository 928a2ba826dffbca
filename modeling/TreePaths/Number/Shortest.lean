import TreePaths.Number.Binary64

/-!
# Shortest decimal text of a floating-point number

Of all decimal numbers that are read back as a given `Binary64`, the text shows one with the fewest
digits; of those the nearest to the exact value, and in a tie the one whose last digit is even.

The decimals that are read back fill an interval around the exact value, whose ends are the
midpoints to the two neighbours and belong to it exactly if the significand is even. Everything is
computed exactly: a common unit is chosen in which the value and both ends are natural numbers times
a power of ten, and the grids of multiples of `10 ^ j` are searched from the coarsest to the finest.
On a grid that meets the interval, one of the two points beside the value lies in it.
-/

namespace TreePaths

/-- A natural number times a power of ten. -/
structure Decimal where
  /-- The natural number that the digits write. -/
  digits : Nat
  exponent : Int
deriving DecidableEq

namespace Shortest

/-- The decimals that are read back as one number: those from `low` to `high` in units of a power of
ten, with the ends if `closed`. The exact value of the number is `centre`. -/
structure Interval where
  low : Nat
  centre : Nat
  high : Nat
  /-- Whether the ends belong to the interval. -/
  closed : Bool
  /-- The power of ten that the three are multiples of. -/
  unit : Int

/-- The interval of a number. Below a power of two the neighbour is nearer than above it. -/
def Interval.of (x : Binary64) : Interval :=
  let e := x.exponent - 2
  let scale := Nat.pow 2 e.toNat * Nat.pow 5 (-e).toNat
  let below := if x.significand = Nat.pow 2 52 ∧ x.exponent ≠ -1074 then 1 else 2
  { low := (4 * x.significand - below) * scale
    centre := 4 * x.significand * scale
    high := (4 * x.significand + 2) * scale
    closed := x.significand % 2 = 0
    unit := min e 0 }

def Interval.holds (i : Interval) (n : Nat) : Bool :=
  if i.closed then i.low ≤ n ∧ n ≤ i.high else i.low < n ∧ n < i.high

/-- The better of the two multiples of `g` beside the centre, counted in multiples of `g`, if one of
them lies in the interval. -/
def Interval.onGrid? (i : Interval) (g : Nat) : Option Nat :=
  let q := i.centre / g
  let below := i.holds (q * g)
  let above := i.holds ((q + 1) * g)
  if below ∧ above then some (Binary64.roundEven i.centre g)
  else if below then some q
  else if above then some (q + 1)
  else none

/-- The first hit on the grids of `10 ^ j`, …, `10`, `1`. -/
def Interval.search (i : Interval) : Nat → Decimal
  | 0 => ⟨i.centre, i.unit⟩
  | j + 1 =>
    match i.onGrid? (Nat.pow 10 (j + 1)) with
    | some n => ⟨n, i.unit + (j + 1 : Nat)⟩
    | none => i.search j

end Shortest

/-- A decimal with as few digits as possible that is read back as the given number. -/
def Binary64.shortest (x : Binary64) : Decimal :=
  let i := Shortest.Interval.of x
  i.search (Nat.toDigits 10 i.centre).length

example : (Binary64.ofParts? false 7205759403792794 (-56)).map Binary64.shortest =
    some ⟨1, -1⟩ := by decide +kernel

example : (Binary64.ofParts? false 1 (-1074)).map Binary64.shortest = some ⟨5, -324⟩ := by
  decide +kernel

end TreePaths
