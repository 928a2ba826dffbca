/-!
# Decimal readings of text

A run of decimal digits is read as a natural number, with or without leading zeros, and the empty
run is not a number. Two readings of a signed text are built on it: an `index?`, which has 64 bits
and an optional plus sign, and an `integer?`, which has 64 bits with a sign.

The writing side is the standard decimal text `Nat.repr`; `value?_toDigits` and `index?_repr` say
that reading inverts it.
-/

namespace TreePaths.Decimal

/-- The number that a nonempty run of decimal digits stands for. -/
def value? (cs : List Char) : Option Nat :=
  if cs ≠ [] ∧ cs.all Char.isDigit then some (Nat.ofDigitChars 10 cs 0) else none

@[simp] theorem value?_nil : value? [] = none := rfl

@[simp] theorem value?_toDigits (n : Nat) : value? (Nat.toDigits 10 n) = some n := by
  have hd : (Nat.toDigits 10 n).all Char.isDigit = true :=
    List.all_eq_true.2 fun c hc => Nat.isDigit_of_mem_toDigits (by decide) (by decide) hc
  simp [value?, hd, Nat.toDigits_ne_nil, Nat.ofDigitChars_ten_toDigits]

/-- Different numbers have different decimal texts. -/
theorem repr_injective {m n : Nat} (h : m.repr = n.repr) : m = n := by
  rw [Nat.repr_eq_ofList_toDigits, Nat.repr_eq_ofList_toDigits] at h
  have hd : Nat.toDigits 10 m = Nat.toDigits 10 n := by
    simpa using congrArg String.toList h
  simpa using congrArg value? hd

/-- The number of values that 64 bits distinguish. -/
def wordSize : Nat := Nat.pow 2 64

/-- The number of negative values among them where one bit is the sign. -/
def signedSize : Nat := Nat.pow 2 63

/-- The index that a key stands for: decimal digits after an optional plus sign, below
`wordSize`. -/
def index? (key : String) : Option Nat :=
  let digits := match key.toList with
    | '+' :: cs => cs
    | cs => cs
  (value? digits).filter (· < wordSize)

/-- The decimal text of a number that fits is read back as that number. -/
theorem index?_repr {n : Nat} (h : n < wordSize) : index? n.repr = some n := by
  have hn : n.repr.toList = Nat.toDigits 10 n := by
    rw [Nat.repr_eq_ofList_toDigits, String.toList_ofList]
  have hplus : ∀ cs, Nat.toDigits 10 n ≠ '+' :: cs := fun cs hcs => by
    have : '+'.isDigit = true :=
      Nat.isDigit_of_mem_toDigits (by decide) (by decide) (hcs ▸ List.mem_cons_self)
    exact absurd this (by decide)
  unfold index?
  rw [hn]
  split
  · rename_i cs hcs
    exact absurd hcs (hplus cs)
  · simp [h, Option.filter]

/-- The signed number of 64 bits that a text stands for: decimal digits after an optional sign. -/
def integer? (text : String) : Option Int :=
  match text.toList with
  | '-' :: cs => (value? cs).bind fun n => if n ≤ signedSize then some (-(n : Int)) else none
  | '+' :: cs => (value? cs).bind fun n => if n < signedSize then some (n : Int) else none
  | cs => (value? cs).bind fun n => if n < signedSize then some (n : Int) else none

end TreePaths.Decimal
