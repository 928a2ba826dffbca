import TreePaths.Projection.Directive

/-!
# Projections

A projection reshapes records into one tree. Every record that is a mapping goes through the
directives in order, and each directive changes the tree that has been accumulated so far; other
records are skipped.

A copied value replaces what its key held. A group and a bucket go on with the tree under their key,
which is an empty mapping at first; a record without the grouping field, or with a container in it,
is left out of the group. A slot goes on with a new empty mapping, which is appended to a sequence,
or filed in a mapping that holds something already under the index after the largest one in use.
Indices have 64 bits: where the last one is in use, the slot is filed under zero, together with what
stands there.
-/

namespace TreePaths

/-- The key that a value groups records under. -/
def Tree.bucketKey? : Tree → Option String
  | .null => some ""
  | .scalar a => some a.key
  | _ => none

/-- The least number above every index that stands as a key in a mapping. -/
def Entries.indexBound (es : Entries Tree) : Nat :=
  ((es.keys.filterMap Decimal.index?).map (· + 1)).foldl max 0

/-- The index after the largest one that stands as a key in a mapping. It has 64 bits, so after the
last index it is zero again. -/
def Entries.nextIndex (es : Entries Tree) : Nat := es.indexBound % Decimal.wordSize

/-- A tree with one more place in it, which holds an empty mapping changed by `fill`. A mapping in
which the next index is in use has no room for one more place, and what stands there is changed. -/
def Tree.pushSlot (fill : Tree → Tree) : Tree → Tree
  | .mapping (e :: es) =>
    .mapping (Entries.update (Entries.nextIndex (e :: es)).repr .empty fill (e :: es))
  | t => .sequence (t.items ++ [fill .empty])

/-- A tree in which what stands under a key, at first an empty mapping, is changed by `fill`. -/
def Tree.fillBucket (k : String) (fill : Tree → Tree) (t : Tree) : Tree :=
  .mapping (Entries.update k .empty fill t.entries)

mutual

/-- The accumulated tree after a record went through one directive. -/
def Directive.apply (record : Entries Tree) : Directive → Tree → Tree
  | .copy field target, t =>
    match Entries.lookup field record with
    | some v => .mapping (Entries.insert target v t.entries)
    | none => t
  | .group field body, t =>
    match (Entries.lookup field record).bind Tree.bucketKey? with
    | some k => t.fillBucket k (Directive.applyAll record body)
    | none => t
  | .bucket k body, t => t.fillBucket k (Directive.applyAll record body)
  | .slot body, t => t.pushSlot (Directive.applyAll record body)

/-- The accumulated tree after a record went through directives in order. -/
def Directive.applyAll (record : Entries Tree) : List Directive → Tree → Tree
  | [], t => t
  | d :: ds, t => Directive.applyAll record ds (d.apply record t)

end

/-- A projection that has been read from a tree. -/
structure Projection where
  directives : List Directive

namespace Projection

/-- The projection that a tree spells. -/
def ofTree (t : Tree) (options : ProjectionOptions) : Except ProjectionError Projection :=
  (Directive.ofTree options.maxDepth 0 "" t).map Projection.mk

/-- The accumulated tree after one more record. -/
def addRecord (p : Projection) (t record : Tree) : Tree :=
  match record.mapping? with
  | some es => Directive.applyAll es p.directives t
  | none => t

/-- The tree into which a projection reshapes records. -/
def run (p : Projection) (records : List Tree) : Tree := records.foldl p.addRecord .empty

end Projection

end TreePaths
