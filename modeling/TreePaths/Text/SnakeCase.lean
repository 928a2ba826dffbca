/-!
# Snake case

An identifier in camel case is cut into words, which are written in lower case and joined by
underscores. A word is either an acronym, which is a run of capitals and digits that starts with a
capital and ends at the end of the text or right before a capitalised word, or a letter followed by
at least one small letter or digit. An acronym is preferred, and among acronyms the longest. A
character at which no word starts is skipped, so separators disappear, and so do a letter that
stands alone inside a text and a digit that does not follow a letter.

Letters and digits are those of ASCII: every other character separates words.
-/

namespace TreePaths.SnakeCase

/-- Whether a character may continue an acronym. -/
def isCapital (c : Char) : Bool := c.isUpper || c.isDigit

/-- Whether a character may continue a word that is not an acronym. -/
def isSmall (c : Char) : Bool := c.isLower || c.isDigit

/-- Whether an acronym may end before a text: nothing follows, or a capitalised word does. -/
def endsAcronym : List Char → Bool
  | [] => true
  | c :: d :: _ => c.isUpper && isSmall d
  | _ => false

/-- The length, at most `n`, of the longest start of a text after which an acronym may end. -/
def acronymLength? (cs : List Char) : Nat → Option Nat
  | 0 => none
  | n + 1 => if endsAcronym (cs.drop (n + 1)) then some (n + 1) else acronymLength? cs n

/-- The length of the word that a text starts with. -/
def wordLength? : List Char → Option Nat
  | [] => none
  | c :: cs =>
    let acronym :=
      if c.isUpper then acronymLength? (c :: cs) ((cs.takeWhile isCapital).length + 1) else none
    acronym.or <|
      let small := (cs.takeWhile isSmall).length
      if c.isAlpha ∧ small ≠ 0 then some (small + 1) else none

/-- The words of a text, as they stand in it. -/
def words : List Char → List (List Char)
  | [] => []
  | c :: cs =>
    match wordLength? (c :: cs) with
    | some (n + 1) => (c :: cs.take n) :: words (cs.drop n)
    | _ => words cs
termination_by cs => cs.length
decreasing_by
  · exact Nat.lt_succ_of_le (List.drop_suffix n cs).length_le
  · exact Nat.lt_succ_self _

/-- A word in lower case. One without small letters is lowered as a whole, any other one only at its
first letter, for the rest of it has no capitals. -/
def lowered (w : List Char) : List Char :=
  if w = w.map Char.toUpper then w.map Char.toLower
  else
    match w with
    | [] => []
    | c :: cs => c.toLower :: cs

end TreePaths.SnakeCase

namespace TreePaths

/-- A camel-case identifier in snake case. -/
def snakeCase (text : String) : String :=
  String.ofList (List.intercalate ['_'] ((SnakeCase.words text.toList).map SnakeCase.lowered))

end TreePaths
