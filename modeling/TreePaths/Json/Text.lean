/-!
# Texts in JSON

Inside a JSON document a text stands between double quotes. Reading accepts every character except
the quote, the backslash and the control characters below the space, and the escapes that a
backslash starts; an escaped code unit that is half of a pair must be followed by the other half.
Writing escapes what it has to and nothing else, and prefers the short escapes.
-/

namespace TreePaths.Json

/-- The character that a one-letter escape stands for. -/
def shortEscape? : Char → Option Char
  | '"' => some '"'
  | '\\' => some '\\'
  | '/' => some '/'
  | 'b' => some '\x08'
  | 'f' => some '\x0c'
  | 'n' => some '\n'
  | 'r' => some '\r'
  | 't' => some '\t'
  | _ => none

/-- The value of a hexadecimal digit in either case. -/
def hexValue? (c : Char) : Option Nat :=
  if c.isDigit then some (c.toNat - '0'.toNat)
  else if 'a' ≤ c ∧ c ≤ 'f' then some (c.toNat - 'a'.toNat + 10)
  else if 'A' ≤ c ∧ c ≤ 'F' then some (c.toNat - 'A'.toNat + 10)
  else none

/-- The code unit that the four hexadecimal digits at the start of a text stand for. -/
def codeUnit? : List Char → Option (Nat × List Char)
  | a :: b :: c :: d :: cs => do
    let a ← hexValue? a
    let b ← hexValue? b
    let c ← hexValue? c
    let d ← hexValue? d
    return (((a * 16 + b) * 16 + c) * 16 + d, cs)
  | _ => none

/-- The first halves of surrogate pairs. -/
def isHighHalf (u : Nat) : Bool := 0xd800 ≤ u && u < 0xdc00

/-- The second halves of surrogate pairs. -/
def isLowHalf (u : Nat) : Bool := 0xdc00 ≤ u && u < 0xe000

/-- The character of a numbered escape whose digits start the text. -/
def numberedEscape? (cs : List Char) : Option (Char × List Char) :=
  (codeUnit? cs).bind fun (u, cs) =>
    if isHighHalf u then
      match cs with
      | '\\' :: 'u' :: cs => (codeUnit? cs).bind fun (v, cs) =>
        if isLowHalf v then some (.ofNat (0x10000 + (u - 0xd800) * 0x400 + (v - 0xdc00)), cs)
        else none
      | _ => none
    else if isLowHalf u then none
    else some (.ofNat u, cs)

/-- The character of an escape, whose text starts after the backslash. -/
def escape? : List Char → Option (Char × List Char)
  | [] => none
  | c :: cs => if c = 'u' then numberedEscape? cs else (shortEscape? c).map fun d => (d, cs)

theorem length_le_of_codeUnit? {cs rest : List Char} {u : Nat}
    (h : codeUnit? cs = some (u, rest)) : rest.length ≤ cs.length := by
  unfold codeUnit? at h
  split at h
  · simp only [Option.bind_eq_bind, Option.bind_eq_some_iff, Option.pure_def, Option.some.injEq,
      Prod.mk.injEq] at h
    obtain ⟨_, _, _, _, _, _, _, _, _, rfl⟩ := h
    simp only [List.length_cons]
    omega
  · simp at h

theorem length_le_of_numberedEscape? {cs rest : List Char} {c : Char}
    (h : numberedEscape? cs = some (c, rest)) : rest.length ≤ cs.length := by
  unfold numberedEscape? at h
  obtain ⟨⟨u, ds⟩, hu, h⟩ := Option.bind_eq_some_iff.1 h
  have hd := length_le_of_codeUnit? hu
  dsimp only at h
  split at h
  · split at h
    · obtain ⟨⟨v, es⟩, hv, h⟩ := Option.bind_eq_some_iff.1 h
      have he := length_le_of_codeUnit? hv
      split at h
      · simp only [Option.some.injEq, Prod.mk.injEq] at h
        simp only [List.length_cons] at hd
        rw [← h.2]
        omega
      · simp at h
    · simp at h
  · split at h
    · simp at h
    · simp only [Option.some.injEq, Prod.mk.injEq] at h
      exact h.2 ▸ hd

theorem length_lt_of_escape? {cs rest : List Char} {c : Char}
    (h : escape? cs = some (c, rest)) : rest.length < cs.length := by
  cases cs with
  | nil => simp [escape?] at h
  | cons d ds =>
      simp only [escape?] at h
      split at h
      · exact Nat.lt_succ_of_le (length_le_of_numberedEscape? h)
      · obtain ⟨_, _, h⟩ := Option.map_eq_some_iff.1 h
        simp only [Prod.mk.injEq] at h
        simp [h.2]

/-- The text up to the closing quote, and what follows the quote. -/
def text? : List Char → Option (List Char × List Char)
  | [] => none
  | c :: cs =>
    if c = '"' then some ([], cs)
    else if c = '\\' then
      match _ : escape? cs with
      | none => none
      | some (d, rest) => (text? rest).map fun (ds, rest) => (d :: ds, rest)
    else if c < ' ' then none
    else (text? cs).map fun (ds, rest) => (c :: ds, rest)
termination_by cs => cs.length
decreasing_by
  · have := length_lt_of_escape? ‹_›
    simp only [List.length_cons]
    omega
  · simp

theorem length_lt_of_text? {cs ds rest : List Char} (h : text? cs = some (ds, rest)) :
    rest.length < cs.length := by
  fun_induction text? cs generalizing ds with
  | case1 => simp at h
  | case2 => simp_all
  | case3 => simp at h
  | case4 cs d mid hmid _ ih =>
      obtain ⟨⟨es, _⟩, he, h⟩ := Option.map_eq_some_iff.1 h
      simp only [Prod.mk.injEq] at h
      have := ih (h.2 ▸ he)
      have := length_lt_of_escape? hmid
      simp only [List.length_cons]
      omega
  | case5 => simp at h
  | case6 c cs _ _ _ ih =>
      obtain ⟨⟨es, _⟩, he, h⟩ := Option.map_eq_some_iff.1 h
      simp only [Prod.mk.injEq] at h
      exact Nat.lt_succ_of_lt (ih (h.2 ▸ he))

/-- The written form of one character of a text. -/
def writeChar (c : Char) : List Char :=
  match c with
  | '"' => ['\\', '"']
  | '\\' => ['\\', '\\']
  | '\x08' => ['\\', 'b']
  | '\x0c' => ['\\', 'f']
  | '\n' => ['\\', 'n']
  | '\r' => ['\\', 'r']
  | '\t' => ['\\', 't']
  | c =>
    if c < ' ' then
      ['\\', 'u', '0', '0', Nat.digitChar (c.toNat / 16), Nat.digitChar (c.toNat % 16)]
    else [c]

/-- The written form of a text, with its quotes. -/
def writeText (s : String) : List Char := ['"'] ++ s.toList.flatMap writeChar ++ ['"']

end TreePaths.Json
