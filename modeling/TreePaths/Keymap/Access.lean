import TreePaths.Keymap.Basic
import TreePaths.Path.Access

/-!
# Reading and writing through a keymap

A keymap with one alternative reads as that path does. With several alternatives the answers are
listed side by side, one for each alternative, and never merged. Writing and removing go through the
alternatives in order, each on the tree that the ones before it left.
-/

namespace TreePaths.Keymap

/-- What a keymap addresses in a tree. -/
def get (k : Keymap) (t : Tree) : Tree :=
  match k.paths with
  | [] => .null
  | [p] => p.get t
  | ps => .sequence (ps.map fun p => p.get t)

/-- Stores a value at every position that a keymap addresses. -/
def write (mode : Write) (k : Keymap) (t v : Tree) : Tree :=
  k.paths.foldl (fun t p => p.write mode v t) t

def set (k : Keymap) (t v : Tree) : Tree := k.write .set t v

def add (k : Keymap) (t v : Tree) : Tree := k.write .add t v

/-- Whether anything was removed, and what is left. -/
def remove (k : Keymap) (t : Tree) : Bool × Tree :=
  k.paths.foldl (fun (removed, t) p => (p.removes t || removed, p.erase t)) (false, t)

/-- What a keymap addresses, and what is left when it is removed. -/
def splice (k : Keymap) (t : Tree) : Tree × Tree := (k.get t, (k.remove t).2)

/-- What each of some keymaps addresses, under the text of the keymap. Unlike in a list of keys,
what is missing is listed as null. -/
def getAll (texts : List String) (options : PathOptions) (t : Tree) :
    Except GrammarError (Entries Tree) :=
  (texts.mapM fun text => (parse text options).map fun k => (text, k.get t)).map Entries.ofList

end TreePaths.Keymap
