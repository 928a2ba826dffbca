import TreePaths.Path.Basic
import TreePaths.Tree.Basic

/-!
# Reading and writing along a path

`get` reads what a path addresses and never fails: where something on the way is missing or has
another shape, the answer is null. A list of keys reads as the mapping of those that are present.

`write` stores a value at every position that a path addresses. On the way down it turns each tree
into a mapping, in the manner of `Tree.entries`, and creates what is missing. Elements of a sequence
are written to only where there is a sequence already. A value that is added, and not set, is
appended where its key already holds a sequence.

`erase` removes the keys that a path addresses and creates nothing; `removes` says whether there is
one to remove. Only one level of sequences is entered: a path with brackets inside brackets removes
nothing.
-/

namespace TreePaths

/-- How a value is stored at a key. -/
inductive Write where
  /-- It replaces what is there. -/
  | set
  /-- It is appended to a sequence and replaces anything else. -/
  | add
deriving DecidableEq

/-- The value that a key holds after `v` is stored over `old`. -/
def Write.over (mode : Write) (v : Tree) (old : Option Tree) : Tree :=
  match mode, old with
  | .add, some (.sequence items) => .sequence (items ++ [v])
  | _, _ => v

def Write.atKey (mode : Write) (v : Tree) (k : String) (es : Entries Tree) : Entries Tree :=
  Entries.insert k (mode.over v (Entries.lookup k es)) es

namespace Path

/-- The tree that a path addresses, and null if it addresses none. -/
def get : Path → Tree → Tree
  | key k, t => (t.child? k).getD .null
  | keys ks, t =>
    match t.mapping? with
    | none => .null
    | some es =>
      .mapping (Entries.ofList (ks.filterMap fun k => (Entries.lookup k es).map fun v => (k, v)))
  | push, _ => .null
  | each inner, t =>
    match t.sequence? with
    | none => .null
    | some items => .sequence (items.map inner.get)
  | down k rest, t =>
    match t.child? k with
    | none => .null
    | some c => rest.get c

/-- The tree that is created at a missing key where a path goes on. -/
def placeholder : Path → Tree
  | push | each _ => .sequence []
  | _ => .empty

/-- The tree after a value is stored at every position that a path addresses. -/
def write (mode : Write) (v : Tree) : Path → Tree → Tree
  | key k, t => .mapping (mode.atKey v k t.entries)
  | keys ks, t => .mapping (ks.foldl (fun es k => mode.atKey v k es) t.entries)
  | push, t => .sequence (t.items ++ [v])
  | each inner, t =>
    match t with
    | .sequence items => .sequence (items.map (inner.write mode v))
    | t => t
  | down k rest, t => .mapping (Entries.update k rest.placeholder (rest.write mode v) t.entries)

def set (p : Path) (t v : Tree) : Tree := p.write .set v t

def add (p : Path) (t v : Tree) : Tree := p.write .add v t

/-- Whether a path enters no sequence. -/
def isFlat : Path → Bool
  | each _ => false
  | down _ rest => rest.isFlat
  | _ => true

/-- Whether a path addresses a key that is present. -/
def removes : Path → Tree → Bool
  | key k, t => (t.child? k).isSome
  | keys ks, t => ks.any fun k => (t.child? k).isSome
  | push, _ => false
  | each inner, t => inner.isFlat && ((t.sequence?.getD []).any inner.removes)
  | down k rest, t =>
    match t.child? k with
    | none => false
    | some c => rest.removes c

/-- The tree without the keys that a path addresses. -/
def erase : Path → Tree → Tree
  | key k, t =>
    match t with
    | .mapping es => .mapping (Entries.erase k es)
    | t => t
  | keys ks, t =>
    match t with
    | .mapping es => .mapping (ks.foldl (fun es k => Entries.erase k es) es)
    | t => t
  | push, t => t
  | each inner, t =>
    match t with
    | .sequence items => if inner.isFlat then .sequence (items.map inner.erase) else t
    | t => t
  | down k rest, t =>
    match t with
    | .mapping es => .mapping (Entries.modify k rest.erase es)
    | t => t

/-- Whether anything was removed, and what is left. -/
def remove (p : Path) (t : Tree) : Bool × Tree := (p.removes t, p.erase t)

/-- What a path addresses, and what is left when it is removed. -/
def splice (p : Path) (t : Tree) : Tree × Tree := (p.get t, p.erase t)

end Path

end TreePaths
