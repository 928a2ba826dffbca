import TreePaths.Options
import TreePaths.Path.Assembly
import TreePaths.Path.Grammar

/-!
# Keymaps

A keymap is a list of paths, its alternatives. Its text separates them by bars, and an alternative
that names nothing is dropped when a text is read.
-/

namespace TreePaths

/-- A list of alternative paths. -/
structure Keymap where
  paths : List Path
deriving DecidableEq

namespace Keymap

def ofPath (p : Path) : Keymap := ⟨[p]⟩

/-- The keymap that a text spells. -/
def parse (text : String) (options : PathOptions) : Except GrammarError Keymap :=
  match Brackets.alternatives? 0 text.toList with
  | none => .error (.unbalanced text)
  | some alternatives =>
    (alternatives.mapM (Path.ofAlternative options.maxDepth options.maxDepth)).map fun paths =>
      ⟨paths.filterMap id⟩

def text (k : Keymap) : String :=
  String.ofList (List.intercalate ['|'] (k.paths.map Path.chars))

end Keymap

end TreePaths
