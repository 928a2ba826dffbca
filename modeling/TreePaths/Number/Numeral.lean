import TreePaths.Number.Basic
import TreePaths.Text.Decimal

/-!
# Numerals

A numeral is the text of a number: an optional minus sign, a whole part without needless leading
zeros, and optionally a fraction and a signed exponent. Without fraction and exponent it is read as
an integer if 64 bits hold it, with the minus sign as a signed and otherwise as an unsigned word;
`-0` and everything else is a floating-point number.

A floating-point numeral is not rounded once but in steps. As many leading digits as fit into 64
bits are taken as one integer, digits of the whole part beyond them count as zeros, and digits of
the fraction beyond them are dropped. That integer is rounded, and then multiplied with or divided
by a rounded power of ten. A result that is too large makes the numeral invalid.
-/

namespace TreePaths

/-- The parts of a numeral. Both lists hold decimal digits. -/
structure Numeral where
  negative : Bool
  whole : List Char
  fraction : List Char
  exponent : Option Int

namespace Numeral

/-- Whether a text starts with a minus sign, and what follows the sign. -/
def sign : List Char → Bool × List Char
  | '-' :: cs => (true, cs)
  | cs => (false, cs)

/-- A nonempty run of decimal digits at the start of a text, and what follows it. -/
def digits? (cs : List Char) : Option (List Char × List Char) :=
  match cs.takeWhile Char.isDigit with
  | [] => none
  | d :: ds => some (d :: ds, cs.dropWhile Char.isDigit)

/-- The whole part at the start of a text: a zero alone, or digits that do not start with one. -/
def whole? : List Char → Option (List Char × List Char)
  | '0' :: cs => some (['0'], cs)
  | cs => digits? cs

/-- The fraction at the start of a text, where a point must be followed by a digit. -/
def fraction? : List Char → Option (List Char × List Char)
  | '.' :: cs => digits? cs
  | cs => some ([], cs)

/-- The digits of an exponent with a sign, as an integer. -/
def signedDigits? (negative : Bool) (cs : List Char) : Option (Option Int × List Char) :=
  (digits? cs).map fun (ds, rest) =>
    let n : Int := Nat.ofDigitChars 10 ds 0
    (some (if negative then -n else n), rest)

/-- The exponent at the start of a text, where the letter must be followed by digits. -/
def exponent? : List Char → Option (Option Int × List Char)
  | c :: cs =>
    if c = 'e' ∨ c = 'E' then
      match cs with
      | '-' :: cs => signedDigits? true cs
      | '+' :: cs => signedDigits? false cs
      | cs => signedDigits? false cs
    else some (none, c :: cs)
  | [] => some (none, [])

/-- The numeral at the start of a text, and what follows it. -/
def read? (cs : List Char) : Option (Numeral × List Char) := do
  let (negative, cs) := sign cs
  let (whole, cs) ← whole? cs
  let (fraction, cs) ← fraction? cs
  let (exponent, cs) ← exponent? cs
  return (⟨negative, whole, fraction, exponent⟩, cs)

theorem length_sign_le (cs : List Char) : (sign cs).2.length ≤ cs.length := by
  unfold sign
  split <;> simp

theorem length_lt_of_digits? {cs ds rest : List Char}
    (h : digits? cs = some (ds, rest)) : rest.length < cs.length := by
  unfold digits? at h
  split at h
  · simp at h
  · rename_i d es hd
    simp only [Option.some.injEq, Prod.mk.injEq] at h
    have hl := congrArg List.length (List.takeWhile_append_dropWhile (p := Char.isDigit) (l := cs))
    rw [hd, List.length_append, List.length_cons] at hl
    rw [← h.2]
    omega

theorem length_lt_of_whole? {cs ds rest : List Char}
    (h : whole? cs = some (ds, rest)) : rest.length < cs.length := by
  unfold whole? at h
  split at h
  · simp only [Option.some.injEq, Prod.mk.injEq] at h
    simp [h.2]
  · exact length_lt_of_digits? h

theorem length_le_of_fraction? {cs ds rest : List Char}
    (h : fraction? cs = some (ds, rest)) : rest.length ≤ cs.length := by
  unfold fraction? at h
  split at h
  · exact Nat.le_succ_of_le (Nat.le_of_lt (length_lt_of_digits? h))
  · simp only [Option.some.injEq, Prod.mk.injEq] at h
    simp [h.2]

theorem length_lt_of_signedDigits? {negative : Bool} {cs rest : List Char} {e : Option Int}
    (h : signedDigits? negative cs = some (e, rest)) : rest.length < cs.length := by
  obtain ⟨⟨ds, _⟩, hd, h⟩ := Option.map_eq_some_iff.1 h
  simp only [Prod.mk.injEq] at h
  exact length_lt_of_digits? (h.2 ▸ hd)

theorem length_le_of_exponent? {cs rest : List Char} {e : Option Int}
    (h : exponent? cs = some (e, rest)) : rest.length ≤ cs.length := by
  unfold exponent? at h
  split at h
  · split at h
    · split at h <;> have := length_lt_of_signedDigits? h <;> simp only [List.length_cons] <;> omega
    · simp only [Option.some.injEq, Prod.mk.injEq] at h
      simp [h.2]
  · simp only [Option.some.injEq, Prod.mk.injEq] at h
    simp [h.2]

theorem length_lt_of_read? {cs rest : List Char} {n : Numeral}
    (h : read? cs = some (n, rest)) : rest.length < cs.length := by
  simp only [read?, Option.bind_eq_bind, Option.bind_eq_some_iff, Option.pure_def,
    Option.some.injEq, Prod.mk.injEq] at h
  obtain ⟨⟨w, c₁⟩, h₁, ⟨f, c₂⟩, h₂, ⟨e, c₃⟩, h₃, _, hrest⟩ := h
  dsimp only at h₂ h₃ hrest
  rw [← hrest]
  have := length_sign_le cs
  have := length_lt_of_whole? h₁
  have := length_le_of_fraction? h₂
  have := length_le_of_exponent? h₃
  omega

/-- Appends digits to an integer for as long as 64 bits hold it, and returns the digits left. -/
def absorb (n : Nat) : List Char → Nat × List Char
  | [] => (n, [])
  | c :: cs =>
    let m := 10 * n + (c.toNat - '0'.toNat)
    if m < Decimal.wordSize then absorb m cs else (n, c :: cs)

/-- The integer and the power of ten that a numeral is read as, without its sign. -/
def parts (n : Numeral) : Nat × Int :=
  let (lead, dropped) := absorb 0 n.whole
  let (lead, ignored) := absorb lead n.fraction
  (lead, dropped.length - (n.fraction.length - ignored.length) + n.exponent.getD 0)

/-- Divides by `10 ^ k`, in steps that stay within the powers of ten that exist. -/
def divTen? (x : Binary64) (k : Nat) : Option Binary64 :=
  if k ≤ 308 then (Binary64.powerOfTen? k).bind x.div?
  else if x.significand = 0 then some x
  else ((Binary64.powerOfTen? 308).bind x.div?).bind fun y => divTen? y (k - 308)
termination_by k

/-- Multiplies with `10 ^ k`, if the result is not too large. -/
def mulTen? (x : Binary64) (k : Nat) : Option Binary64 :=
  if x.significand = 0 then some x
  else if k ≤ 308 then (Binary64.powerOfTen? k).bind x.mul?
  else none

/-- The floating-point number that a numeral is read as. -/
def real? (n : Numeral) : Option Binary64 := do
  let (lead, power) := n.parts
  let x ← Binary64.nearest? n.negative lead 1
  if power < 0 then divTen? x power.natAbs else mulTen? x power.natAbs

def number? (n : Numeral) : Option Number :=
  let value := Nat.ofDigitChars 10 n.whole 0
  if n.fraction = [] ∧ n.exponent = none then
    if n.negative then
      if value ≠ 0 ∧ value ≤ Decimal.signedSize then some (.integer (-(value : Int)))
      else n.real?.map .real
    else if value < Decimal.wordSize then some (.integer value)
    else n.real?.map .real
  else n.real?.map .real

end Numeral

/-- The number that a whole text is the numeral of. -/
def Number.ofText? (text : String) : Option Number :=
  match Numeral.read? text.toList with
  | some (n, []) => n.number?
  | _ => none

end TreePaths
