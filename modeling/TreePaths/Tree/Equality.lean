import TreePaths.Tree.Basic

/-!
# Equality of trees

Two trees are equal as documents if they differ at most in the order of the entries of their
mappings and in the sign of a floating-point zero. The comparison goes through the first tree: each
of its entries must be met in the second under the same key, and as many entries must be there.
-/

namespace TreePaths

def Scalar.same : Scalar → Scalar → Bool
  | .text s, .text t => s = t
  | .number m, .number n => m.same n
  | .bool a, .bool b => a = b
  | _, _ => false

mutual

/-- Equality of trees as documents. -/
def Tree.same : Tree → Tree → Bool
  | .null, .null => true
  | .scalar a, .scalar b => a.same b
  | .sequence ss, .sequence ts => Tree.sameItems ss ts
  | .mapping es, .mapping fs => es.length = fs.length && Tree.sameEntries es fs
  | _, _ => false

/-- Equality of two lists of elements, place by place. -/
def Tree.sameItems : List Tree → List Tree → Bool
  | [], [] => true
  | s :: ss, t :: ts => s.same t && Tree.sameItems ss ts
  | _, _ => false

/-- Whether each entry of a list is met in another one under the same key. -/
def Tree.sameEntries : List (String × Tree) → List (String × Tree) → Bool
  | [], _ => true
  | (k, s) :: es, fs =>
    (match Entries.lookup k fs with
      | some t => s.same t
      | none => false) && Tree.sameEntries es fs

end

theorem Scalar.same_refl (a : Scalar) : a.same a = true := by
  cases a with
  | text s => simp [same]
  | number n => exact n.same_refl
  | bool b => simp [same]

example : (Tree.mapping [("a", .null), ("b", .empty)]).same
    (.mapping [("b", .empty), ("a", .null)]) = true := by decide +kernel

example : (Tree.sequence [.null, .empty]).same (.sequence [.empty, .null]) = false := by
  decide +kernel

end TreePaths
