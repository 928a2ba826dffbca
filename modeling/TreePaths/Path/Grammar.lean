import TreePaths.Path.Basic
import TreePaths.Path.Brackets
import TreePaths.Path.Error
import TreePaths.Text.Fields

/-!
# The grammar of paths

One alternative of a path expression is read as a path: keys with colons between them, then a key, a
list of keys with commas between them, or a bracket. A bracket with nothing in it is the place where
a sequence is appended to; otherwise it holds an inner path. Parts that are left empty by stray or
doubled delimiters are skipped, so an alternative may turn out to have no path at all.

The rules are checked in this order: the bracket closes, nothing follows it, the list of keys is
last and no bracket follows it, the bracket holds at most one alternative, brackets are not nested
too deeply. After that the inner path is read by the same rules.
-/

namespace TreePaths.Path

/-- What stands before the bracket of an alternative, or all of it if there is none. -/
structure Head where
  /-- The keys before the last segment. -/
  chain : List String
  /-- The names in the last segment. -/
  names : List String

namespace Head

/-- Reads the segments of a text, of which only the last may hold a comma. -/
def ofText? (cs : List Char) : Option Head :=
  let segments := Text.parts ':' cs
  let last := segments.getLast?.getD []
  if segments.dropLast.any (·.contains ',') then none
  else some ⟨segments.dropLast.map String.ofList, (Text.parts ',' last).map String.ofList⟩

/-- The path of an alternative without a bracket, if it names anything. -/
def path? (h : Head) : Option Path :=
  match h.names with
  | _ :: _ :: _ => some (under h.chain (keys h.names))
  | _ => ofKeys? (h.chain ++ h.names)

/-- The path of an alternative whose bracket is read as `p`. -/
def before (h : Head) (p : Path) : Path := under (h.chain ++ h.names) p

end Head

/-- The bracket of an alternative: what stands before it and what stands in it, if there is one. -/
def cut (cs : List Char) : Except GrammarError (List Char × Option (List Char)) :=
  match Brackets.atBracket cs with
  | (head, none) => .ok (head, none)
  | (head, some rest) =>
    match Brackets.interior? 0 rest with
    | none => .error (.unbalanced (String.ofList cs))
    | some (inside, []) => .ok (head, some inside)
    | some _ => .error (.afterBracket (String.ofList cs))

/-- Whether an alternative holds anything but delimiters of keys. -/
def isSignificant (cs : List Char) : Bool := cs.any fun c => c ≠ ':' ∧ c ≠ ','

/-- The path of one alternative, if it names anything, with `room` levels of brackets left of
`limit`. -/
def ofAlternative (limit room : Nat) (cs : List Char) : Except GrammarError (Option Path) :=
  match cut cs with
  | .error e => .error e
  | .ok (text, inside) =>
    match Head.ofText? text, inside with
    | none, _ => .error (.listBeforeEnd (String.ofList cs))
    | some head, none => .ok head.path?
    | some head, some inside =>
      if 1 < head.names.length then .error (.listBeforeBracket (String.ofList cs))
      else
        match Brackets.alternatives? 0 inside with
        | none => .error (.unbalanced (String.ofList inside))
        | some alternatives =>
          match alternatives.filter isSignificant with
          | [] => .ok (some (head.before push))
          | [inner] =>
            match room with
            | 0 => .error (.tooDeep limit)
            | room + 1 =>
              (ofAlternative limit room inner).map fun inner =>
                some (head.before ((inner.map each).getD push))
          | _ => .error (.alternativesInside (String.ofList cs))

end TreePaths.Path
