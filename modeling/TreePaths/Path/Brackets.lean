/-!
# Brackets in a text

`alternatives? depth cs` cuts a text at the bars that stand outside of brackets, where `depth`
brackets have been opened before the text; it fails if the brackets do not pair up. `interior?` cuts
a text that starts inside a bracket at the bracket that closes it.
-/

namespace TreePaths.Brackets

/-- The alternatives of a text, if its brackets pair up. -/
def alternatives? : Nat → List Char → Option (List (List Char))
  | 0, [] => some [[]]
  | _ + 1, [] => none
  | depth, c :: cs =>
    if c = '[' then (alternatives? (depth + 1) cs).map (·.modifyHead (c :: ·))
    else if c = ']' then
      match depth with
      | 0 => none
      | depth + 1 => (alternatives? depth cs).map (·.modifyHead (c :: ·))
    else if c = '|' ∧ depth = 0 then (alternatives? 0 cs).map ([] :: ·)
    else (alternatives? depth cs).map (·.modifyHead (c :: ·))

/-- What stands before the bracket that closes the one the text starts in, and what follows it,
where `depth` further brackets are open. -/
def interior? : Nat → List Char → Option (List Char × List Char)
  | _, [] => none
  | depth, c :: cs =>
    if c = ']' then
      match depth with
      | 0 => some ([], cs)
      | depth + 1 => (interior? depth cs).map fun (inside, rest) => (c :: inside, rest)
    else
      let depth := if c = '[' then depth + 1 else depth
      (interior? depth cs).map fun (inside, rest) => (c :: inside, rest)

/-- A text in front of its first bracket, and what follows that bracket if there is one. -/
def atBracket (cs : List Char) : List Char × Option (List Char) :=
  match cs.dropWhile (· ≠ '[') with
  | [] => (cs, none)
  | _ :: rest => (cs.takeWhile (· ≠ '['), some rest)

end TreePaths.Brackets
