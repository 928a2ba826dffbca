import Mathlib.Data.List.Forall2
import TreePaths.Proofs.Entries
import TreePaths.Tree.Basic

/-!
# Trees without some of their entries

`s.Pruned t` says that `t` is what is left of `s` when entries of its mappings are deleted, at any
depth, and nothing else is done. So a sequence keeps all its elements in their order, the keys that
are left in a mapping stand in their order, no key and no container is new, and every leaf that is
left is as it was. For mappings this is `Entries.Thinned`: each entry in its turn is dropped or
kept.
-/

namespace TreePaths

namespace Entries

universe u

variable {α : Type u} {R : α → α → Prop} {es fs : Entries α}

/-- Of the entries of a list some are dropped, and the others are kept in their order, with their
keys and with related values. -/
inductive Thinned (R : α → α → Prop) : Entries α → Entries α → Prop
  | nil : Thinned R [] []
  | drop (e : String × α) {es fs : Entries α} (h : Thinned R es fs) : Thinned R (e :: es) fs
  | keep (k : String) {a b : α} (hab : R a b) {es fs : Entries α} (h : Thinned R es fs) :
      Thinned R ((k, a) :: es) ((k, b) :: fs)

theorem thinned_self (h : ∀ e ∈ es, R e.2 e.2) : Thinned R es es := by
  induction es with
  | nil => exact .nil
  | cons e es ih =>
      rw [List.forall_mem_cons] at h
      exact .keep e.1 h.1 (ih h.2)

theorem Thinned.erase (h : Thinned R es fs) (k : String) : Thinned R es (erase k fs) := by
  induction h with
  | nil => exact .nil
  | drop e _ ih => exact .drop e ih
  | keep l hab _ ih =>
      rw [erase_cons]
      split
      · exact .drop _ ih
      · exact .keep l hab ih

theorem Thinned.modify (h : Thinned R es fs) (k : String) {f : α → α}
    (hf : ∀ a b, R a b → R a (f b)) : Thinned R es (modify k f fs) := by
  induction h with
  | nil => exact .nil
  | drop e _ ih => exact .drop e ih
  | keep l hab h ih =>
      rw [modify_cons]
      split
      · exact .keep l (hf _ _ hab) h
      · exact .keep l hab ih

end Entries

namespace Tree

/-- Trees of which the second one is what is left of the first when entries of mappings are
deleted. -/
inductive Pruned : Tree → Tree → Prop
  | null : Pruned null null
  | scalar (a : Scalar) : Pruned (scalar a) (scalar a)
  | sequence {ts us : List Tree} (h : List.Forall₂ Pruned ts us) :
      Pruned (sequence ts) (sequence us)
  | mapping {es fs : Entries Tree} (h : Entries.Thinned Pruned es fs) :
      Pruned (mapping es) (mapping fs)

theorem Pruned.refl (t : Tree) : t.Pruned t := by
  induction t using Tree.induction with
  | null => exact .null
  | scalar a => exact .scalar a
  | sequence ts ih => exact .sequence (List.forall₂_same.2 ih)
  | mapping es ih => exact .mapping (Entries.thinned_self ih)

end Tree

end TreePaths
