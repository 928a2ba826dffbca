import TreePaths.Json.Text
import TreePaths.Number.Numeral
import TreePaths.Text.Affix
import TreePaths.Tree.Basic

/-!
# Tokens of JSON

A JSON document is cut into tokens: the four brackets, the colon and the comma, texts, and atoms,
which are the numbers and the three words. Blanks between tokens are the space, the tab, the line
feed and the carriage return.
-/

namespace TreePaths.Json

inductive Token where
  | sequenceStart
  | sequenceEnd
  | mappingStart
  | mappingEnd
  | colon
  | comma
  | text (value : String)
  | atom (value : Tree)

/-- Whether a character may stand between tokens. -/
def isBlank (c : Char) : Bool := c = ' ' || c = '\t' || c = '\n' || c = '\r'

def punctuation? : Char → Option Token
  | '[' => some .sequenceStart
  | ']' => some .sequenceEnd
  | '\x7b' => some .mappingStart
  | '\x7d' => some .mappingEnd
  | ':' => some .colon
  | ',' => some .comma
  | _ => none

/-- The number at the start of a text. -/
def number? (cs : List Char) : Option (Token × List Char) :=
  (Numeral.read? cs).bind fun (n, rest) =>
    n.number?.map fun v => (.atom (.scalar (.number v)), rest)

/-- The atom for a word, if the text starts with the word. -/
def word? (word : String) (value : Tree) (cs : List Char) : Option (Token × List Char) :=
  (Text.afterStart? word.toList cs).map fun rest => (.atom value, rest)

/-- The atom at the start of a text. -/
def atom? (cs : List Char) : Option (Token × List Char) :=
  (word? "null" .null cs).or <| (word? "true" (.ofBool true) cs).or <|
    (word? "false" (.ofBool false) cs).or (number? cs)

/-- The token at the start of a text that does not start with a blank. -/
def token? : List Char → Option (Token × List Char)
  | [] => none
  | c :: cs =>
    match punctuation? c with
    | some t => some (t, cs)
    | none =>
      if c = '"' then (text? cs).map fun (s, rest) => (.text (String.ofList s), rest)
      else atom? (c :: cs)

theorem length_lt_of_word? {word : String} {value : Tree} {cs rest : List Char} {t : Token}
    (hw : word ≠ "") (h : word? word value cs = some (t, rest)) : rest.length < cs.length := by
  obtain ⟨r, hr, h⟩ := Option.map_eq_some_iff.1 h
  simp only [Prod.mk.injEq] at h
  have hpos : 0 < word.toList.length := by
    rw [List.length_pos_iff]
    simpa using hw
  rw [Text.afterStart?_eq_some_iff.1 hr, ← h.2, List.length_append]
  omega

theorem length_lt_of_token? {cs rest : List Char} {t : Token}
    (h : token? cs = some (t, rest)) : rest.length < cs.length := by
  cases cs with
  | nil => simp [token?] at h
  | cons c cs =>
      simp only [token?] at h
      split at h
      · simp only [Option.some.injEq, Prod.mk.injEq] at h
        simp [h.2]
      · split at h
        · obtain ⟨⟨s, _⟩, hs, h⟩ := Option.map_eq_some_iff.1 h
          simp only [Prod.mk.injEq] at h
          exact Nat.lt_succ_of_lt (length_lt_of_text? (h.2 ▸ hs))
        · simp only [atom?, Option.or_eq_some_iff] at h
          rcases h with h | ⟨_, h | ⟨_, h | ⟨_, h⟩⟩⟩
          · exact length_lt_of_word? (by decide) h
          · exact length_lt_of_word? (by decide) h
          · exact length_lt_of_word? (by decide) h
          · obtain ⟨⟨n, _⟩, hn, h⟩ := Option.bind_eq_some_iff.1 h
            obtain ⟨_, _, h⟩ := Option.map_eq_some_iff.1 h
            simp only [Prod.mk.injEq] at h
            exact Numeral.length_lt_of_read? (h.2 ▸ hn)

def tokens? (cs : List Char) : Option (List Token) :=
  match _ : cs.dropWhile isBlank with
  | [] => some []
  | d :: ds =>
    match _ : token? (d :: ds) with
    | none => none
    | some (t, rest) => (tokens? rest).map (t :: ·)
termination_by cs.length
decreasing_by
  have hd := (List.dropWhile_suffix isBlank (l := cs)).length_le
  have ht := length_lt_of_token? ‹token? (d :: ds) = some (t, rest)›
  simp_all only
  omega

end TreePaths.Json
