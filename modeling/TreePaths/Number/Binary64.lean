/-!
# Finite binary floating-point numbers of 64 bits

A `Binary64` is a sign, a significand and an exponent, and stands for `± significand * 2 ^ exponent`
exactly. The pair is canonical: the significand has 53 bits unless the exponent is the least one, so
that two numbers of one sign are equal exactly if their parts are. Zero has a sign.

Every operation computes the exact result as a fraction and rounds it once, to the nearest number
and in a tie to the even significand. Where the rounded result would need a larger exponent than
there is, the operation has no result.
-/

namespace TreePaths

/-- The pairs of significand and exponent in use. -/
def Binary64.Canonical (significand : Nat) (exponent : Int) : Prop :=
  significand < Nat.pow 2 53 ∧ -1074 ≤ exponent ∧ exponent ≤ 971 ∧
    (Nat.pow 2 52 ≤ significand ∨ exponent = -1074)

instance (significand : Nat) (exponent : Int) :
    Decidable (Binary64.Canonical significand exponent) :=
  inferInstanceAs (Decidable (_ ∧ _))

/-- A finite binary floating-point number of 64 bits. -/
structure Binary64 where
  /-- Whether the number carries a minus sign, which zero may do as well. -/
  negative : Bool
  /-- The integer that the power of two is multiplied with. -/
  significand : Nat
  exponent : Int
  /-- The pair is the one in use for its value. -/
  canonical : Binary64.Canonical significand exponent
deriving DecidableEq

namespace Binary64

def zero (negative : Bool) : Binary64 := ⟨negative, 0, -1074, by decide⟩

/-- The number with the given parts, if they are canonical. -/
def ofParts? (negative : Bool) (significand : Nat) (exponent : Int) : Option Binary64 :=
  if h : Canonical significand exponent then some ⟨negative, significand, exponent, h⟩ else none

/-- The fraction `n / d` rounded to the nearest natural number, in a tie to the even one. -/
def roundEven (n d : Nat) : Nat :=
  let q := n / d
  let r := n % d
  if 2 * r < d ∨ (2 * r = d ∧ q % 2 = 0) then q else q + 1

/-- A rounded fraction is at most one half away from the fraction. -/
theorem roundEven_mul_le {n d : Nat} (h : 0 < d) :
    2 * (roundEven n d * d) ≤ 2 * n + d ∧ 2 * n ≤ 2 * (roundEven n d * d) + d := by
  have hn := Nat.div_add_mod' n d
  have hr := Nat.mod_lt n h
  unfold roundEven
  dsimp only
  split
  · omega
  · have hs : (n / d + 1) * d = n / d * d + d := Nat.succ_mul (n / d) d
    omega

/-- The power of two at or below the fraction `n / d`, for positive `n` and `d`. -/
def binade (n d : Nat) : Int :=
  let k : Int := (n.log2 : Int) - d.log2
  if n * Nat.pow 2 (-k).toNat < d * Nat.pow 2 k.toNat then k - 1 else k

/-- The number nearest to the fraction `n / d`, in a tie the one whose significand is even. -/
def nearest? (negative : Bool) (n d : Nat) : Option Binary64 :=
  if n = 0 then some (zero negative) else
    let e := max (-1074) (binade n d - 52)
    let m := roundEven (n * Nat.pow 2 (-e).toNat) (d * Nat.pow 2 e.toNat)
    if m = Nat.pow 2 53 then ofParts? negative (Nat.pow 2 52) (e + 1)
    else ofParts? negative m e

def numerator (x : Binary64) : Nat := x.significand * Nat.pow 2 x.exponent.toNat

def denominator (x : Binary64) : Nat := Nat.pow 2 (-x.exponent).toNat

def mul? (x y : Binary64) : Option Binary64 :=
  nearest? (x.negative != y.negative) (x.numerator * y.numerator) (x.denominator * y.denominator)

/-- The rounded quotient by a number other than zero. -/
def div? (x y : Binary64) : Option Binary64 :=
  if y.significand = 0 then none else
    nearest? (x.negative != y.negative) (x.numerator * y.denominator) (x.denominator * y.numerator)

/-- The power of ten with a given exponent, rounded. -/
def powerOfTen? (k : Nat) : Option Binary64 := nearest? false (Nat.pow 10 k) 1

/-- Whether two numbers compare equal: zero is equal to itself whatever its sign. -/
def same (x y : Binary64) : Bool := x = y || (x.significand = 0 && y.significand = 0)

theorem same_refl (x : Binary64) : same x x = true := by
  simp [same]

example : nearest? false 1 10 = ofParts? false 7205759403792794 (-56) := by decide +kernel

/-- Half the least positive number is a tie between zero and it, and zero is even. -/
example : nearest? false 1 (2 ^ 1075) = some (zero false) := by decide +kernel

example : powerOfTen? 309 = none := by decide +kernel

end Binary64

end TreePaths
