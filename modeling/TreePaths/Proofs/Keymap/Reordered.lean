import TreePaths.Proofs.Keymap.Removal
import TreePaths.Proofs.Path.Reordered

/-!
# Keymaps do not see the order of entries

Every operation through a keymap takes reordered trees to reordered trees, as it does so along each
of the alternatives.
-/

namespace TreePaths.Keymap

open TreePaths.Tree (Reordered)

variable {s t v w : Tree}

theorem reordered_get (k : Keymap) (h : s.Reordered t) : (k.get s).Reordered (k.get t) := by
  rw [get, get]
  split
  · exact .null
  · exact Path.reordered_get _ h
  · refine .sequence ?_
    rw [List.forall₂_map_left_iff, List.forall₂_map_right_iff, List.forall₂_same]
    exact fun p _ => p.reordered_get h

theorem reordered_write (mode : Write) (k : Keymap) (hst : s.Reordered t) (h : v.Reordered w) :
    (k.write mode s v).Reordered (k.write mode t w) :=
  List.foldl_rel hst fun p _ _ _ hst => Path.reordered_write mode h p hst

theorem reordered_eraseAll (ps : List Path) (h : s.Reordered t) :
    (eraseAll ps s).Reordered (eraseAll ps t) :=
  List.foldl_rel h fun p _ _ _ h => p.reordered_erase h

theorem reordered_remove (k : Keymap) (h : s.Reordered t) :
    (k.remove s).1 = (k.remove t).1 ∧ (k.remove s).2.Reordered (k.remove t).2 := by
  have hany : (k.paths.any fun p => p.removes s) = k.paths.any fun p => p.removes t :=
    congrArg k.paths.any (funext fun p => p.removes_eq_of_reordered h)
  rw [remove_eq, remove_eq]
  exact ⟨hany, reordered_eraseAll k.paths h⟩

end TreePaths.Keymap
