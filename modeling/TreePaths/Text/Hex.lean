/-!
# Lower-case hexadecimal text

A byte is written with two digits, its high half first. Random text of a given length is written
from half as many random bytes, rounded up, and cut to that length, so that of an odd number of
digits the last one is the high half of its byte. The bytes come from a generator that the caller
supplies, so that a run is a function of the generator's state.
-/

namespace TreePaths.Hex

/-- The lower-case hexadecimal digits. -/
def isDigit (c : Char) : Bool := c.isDigit || ('a' ≤ c && c ≤ 'f')

/-- The lower-case hexadecimal digit of a number below sixteen. -/
def digit (n : Fin 16) : Char := n.val.digitChar

theorem isDigit_digit (n : Fin 16) : isDigit (digit n) = true := by
  revert n
  decide

/-- The two digits of a byte. -/
def ofByte (b : UInt8) : List Char :=
  [digit (Fin.ofNat 16 (b.toNat / 16)), digit (Fin.ofNat 16 b.toNat)]

def ofBytes (bs : List UInt8) : List Char := bs.flatMap ofByte

example : ofBytes [10, 255] = "0aff".toList := by decide

theorem length_ofBytes (bs : List UInt8) : (ofBytes bs).length = 2 * bs.length := by
  induction bs with
  | nil => rfl
  | cons b bs ih =>
      have hcons : ofBytes (b :: bs) = ofByte b ++ ofBytes bs := List.flatMap_cons
      have htwo : (ofByte b).length = 2 := rfl
      rw [hcons, List.length_append, htwo, ih, List.length_cons]
      omega

theorem isDigit_of_mem_ofBytes {bs : List UInt8} {c : Char} (h : c ∈ ofBytes bs) :
    isDigit c = true := by
  obtain ⟨b, -, hc⟩ := List.mem_flatMap.1 h
  rcases List.mem_cons.1 hc with rfl | hc
  · exact isDigit_digit _
  · rw [List.mem_singleton.1 hc]
    exact isDigit_digit _

section Random

variable {γ : Type} [RandomGen γ]

/-- Draws `n` bytes, and returns them with the state that the generator is left in. -/
def draw : Nat → γ → List UInt8 × γ
  | 0, gen => ([], gen)
  | n + 1, gen =>
    let (word, gen) := RandomGen.next gen
    let (bytes, gen) := draw n gen
    (UInt8.ofNat word :: bytes, gen)

theorem length_draw (n : Nat) (gen : γ) : (draw n gen).1.length = n := by
  induction n generalizing gen with
  | zero => rfl
  | succ n ih => simp [draw, ih]

/-- Random hexadecimal text of the given length. -/
def random (length : Nat) (gen : γ) : String :=
  String.ofList ((ofBytes (draw ((length + 1) / 2) gen).1).take length)

theorem length_random (length : Nat) (gen : γ) : (random length gen).length = length := by
  have henough : length ≤ 2 * ((length + 1) / 2) := by omega
  rw [random, String.length_ofList, List.length_take, length_ofBytes, length_draw]
  exact Nat.min_eq_left henough

theorem isDigit_of_mem_random {length : Nat} {gen : γ} {c : Char}
    (h : c ∈ (random length gen).toList) : isDigit c = true := by
  rw [random, String.toList_ofList] at h
  exact isDigit_of_mem_ofBytes (List.mem_of_mem_take h)

end Random

end TreePaths.Hex
