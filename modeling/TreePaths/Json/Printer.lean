import TreePaths.Json.Text
import TreePaths.Tree.Basic

/-!
# Writing JSON

A tree is written without blanks, and a mapping in the order of its entries.
-/

namespace TreePaths

mutual

/-- The JSON text of a tree. -/
def Tree.json : Tree → List Char
  | .null => "null".toList
  | .scalar (.text s) => Json.writeText s
  | .scalar (.number n) => n.text.toList
  | .scalar (.bool b) => (Scalar.bool b).key.toList
  | .sequence items => ['['] ++ List.intercalate [','] (Tree.jsonItems items) ++ [']']
  | .mapping es => ['\x7b'] ++ List.intercalate [','] (Tree.jsonEntries es) ++ ['\x7d']

def Tree.jsonItems : List Tree → List (List Char)
  | [] => []
  | t :: ts => t.json :: Tree.jsonItems ts

def Tree.jsonEntries : List (String × Tree) → List (List Char)
  | [] => []
  | (k, t) :: es => (Json.writeText k ++ [':'] ++ t.json) :: Tree.jsonEntries es

end

/-- A tree as compact JSON. -/
def Tree.toJson (t : Tree) : String := String.ofList t.json

example : (Tree.mapping [("a", .sequence [.ofInt 1, .null]), ("b", .ofBool true)]).toJson =
    "\x7b\"a\":[1,null],\"b\":true\x7d" := by decide +kernel

end TreePaths
