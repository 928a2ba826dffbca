import TreePaths.Proofs.Path.Removal
import TreePaths.Proofs.Tree.Reordered

/-!
# Paths do not see the order of entries

What is read along a path, written along it or removed along it is the same in reordered trees, up
to the order of entries again, and so is the answer whether anything was removed. On the diagonal
this says that each of these operations keeps trees well-formed.
-/

namespace TreePaths

open TreePaths.Tree (Reordered)

variable {s t v w : Tree}

theorem any_eq_of_forall₂ {α β : Type} {f : α → Bool} {g : β → Bool} {xs : List α} {ys : List β}
    (h : List.Forall₂ (fun x y => f x = g y) xs ys) : xs.any f = ys.any g := by
  induction h with
  | nil => rfl
  | cons hxy _ ih => rw [List.any_cons, List.any_cons, hxy, ih]

theorem Tree.reordered_sequence_map {f g : Tree → Tree} {ts us : List Tree}
    (h : List.Forall₂ Reordered ts us)
    (hfg : ∀ s t : Tree, s.Reordered t → (f s).Reordered (g t)) :
    (sequence (ts.map f)).Reordered (sequence (us.map g)) := by
  refine .sequence ?_
  rw [List.forall₂_map_left_iff, List.forall₂_map_right_iff]
  exact h.imp hfg

/-- Changes the elements of a sequence, and nothing in any other shape. -/
def Tree.mapItems (f : Tree → Tree) : Tree → Tree
  | sequence ts => sequence (ts.map f)
  | t => t

theorem Tree.mapItems_mapItems (f g : Tree → Tree) (t : Tree) :
    mapItems g (mapItems f t) = mapItems (fun t => g (f t)) t := by
  cases t with
  | sequence ts => simp [mapItems]
  | _ => rfl

theorem Tree.Reordered.mapItems {f g : Tree → Tree} (h : s.Reordered t)
    (hfg : ∀ s t : Tree, s.Reordered t → (f s).Reordered (g t)) :
    (Tree.mapItems f s).Reordered (Tree.mapItems g t) := by
  cases h with
  | sequence h => exact Tree.reordered_sequence_map h hfg
  | null => exact .null
  | scalar a => exact .scalar a
  | mapping hd hk h => exact .mapping hd hk h

theorem Tree.Reordered.mapEntries {f g : Entries Tree → Entries Tree} (h : s.Reordered t)
    (hfg : ∀ es fs, Entries.Related Reordered es fs → Entries.Related Reordered (f es) (g fs)) :
    (Tree.mapEntries f s).Reordered (Tree.mapEntries g t) := by
  cases h with
  | mapping hd hk h =>
      have hes := Tree.reordered_mapping_iff.1 (.mapping hd hk h)
      exact Tree.reordered_mapping_iff.2 (hfg _ _ hes)
  | null => exact .null
  | scalar a => exact .scalar a
  | sequence h => exact .sequence h

theorem Write.reordered_over (mode : Write) (h : v.Reordered w) {x y : Option Tree}
    (hxy : Option.Rel Reordered x y) : (mode.over v x).Reordered (mode.over w y) := by
  cases hxy with
  | none => cases mode <;> exact h
  | some hst =>
      cases mode with
      | set => exact h
      | add =>
          cases hst with
          | sequence hst => exact .sequence (List.rel_append hst (.cons h .nil))
          | _ => exact h

theorem Write.related_atKey (mode : Write) (h : v.Reordered w) (k : String)
    {es fs : Entries Tree} (hes : Entries.Related Reordered es fs) :
    Entries.Related Reordered (mode.atKey v k es) (mode.atKey w k fs) :=
  hes.insert k (mode.reordered_over h (hes.found k))

namespace Path

theorem write_each (mode : Write) (v : Tree) (inner : Path) :
    (each inner).write mode v = Tree.mapItems (inner.write mode v) := by
  funext t
  cases t <;> rfl

theorem erase_each (inner : Path) :
    (each inner).erase = if inner.isFlat then Tree.mapItems inner.erase else id := by
  funext t
  cases t <;> cases hflat : inner.isFlat <;> simp [erase, Tree.mapItems, hflat]

theorem reordered_placeholder (p : Path) : p.placeholder.Reordered p.placeholder := by
  cases p with
  | push => exact .sequence .nil
  | each inner => exact .sequence .nil
  | _ => exact Tree.reordered_empty

theorem get_down (k : String) (rest : Path) (t : Tree) :
    (down k rest).get t = ((t.child? k).map rest.get).getD .null := by
  rw [get]
  cases t.child? k <;> rfl

theorem removes_down (k : String) (rest : Path) (t : Tree) :
    (down k rest).removes t = ((t.child? k).map rest.removes).getD false := by
  rw [removes]
  cases t.child? k <;> rfl

theorem reordered_get (p : Path) (h : s.Reordered t) : (p.get s).Reordered (p.get t) := by
  induction p generalizing s t with
  | key k => exact getD_of_rel (h.child? k) .null
  | keys ks =>
      cases h with
      | mapping hd hk h =>
          have hes := Tree.reordered_mapping_iff.1 (.mapping hd hk h)
          exact Tree.reordered_mapping_iff.2 (.ofList_filterMap ks hes.found)
      | _ => exact .null
  | push => exact .null
  | each inner ih =>
      cases h with
      | sequence h => exact Tree.reordered_sequence_map h fun _ _ => ih
      | _ => exact .null
  | down k rest ih =>
      rw [get_down, get_down]
      exact getD_of_rel (rel_map (h.child? k) fun _ _ => ih) .null

theorem reordered_write (mode : Write) (h : v.Reordered w) (p : Path) (hst : s.Reordered t) :
    (p.write mode v s).Reordered (p.write mode w t) := by
  induction p generalizing s t with
  | key k => exact Tree.reordered_mapping_iff.2 (mode.related_atKey h k hst.entries)
  | keys ks =>
      refine Tree.reordered_mapping_iff.2 ?_
      exact List.foldl_rel hst.entries fun k _ _ _ hes => mode.related_atKey h k hes
  | push => exact .sequence (List.rel_append hst.items (.cons h .nil))
  | each inner ih =>
      rw [write_each, write_each]
      exact hst.mapItems fun _ _ => ih
  | down k rest ih =>
      refine Tree.reordered_mapping_iff.2 ?_
      exact hst.entries.update k rest.reordered_placeholder fun _ _ => ih

theorem removes_eq_of_reordered (p : Path) (h : s.Reordered t) : p.removes s = p.removes t := by
  induction p generalizing s t with
  | key k => exact isSome_eq_of_rel (h.child? k)
  | keys ks => exact congrArg ks.any (funext fun k => isSome_eq_of_rel (h.child? k))
  | push => rfl
  | each inner ih =>
      cases h with
      | sequence h =>
          have hany := any_eq_of_forall₂ (h.imp fun _ _ => ih)
          exact congrArg (inner.isFlat && ·) hany
      | _ => rfl
  | down k rest ih =>
      rw [removes_down, removes_down]
      exact getD_of_rel (rel_map (h.child? k) fun _ _ => ih) rfl

theorem reordered_erase_keys (ks : List String) (h : s.Reordered t) :
    ((keys ks).erase s).Reordered ((keys ks).erase t) := by
  induction ks generalizing s t with
  | nil =>
      rw [erase_keys_nil]
      exact h
  | cons k ks ih =>
      rw [erase_keys_cons, erase_key]
      exact ih (h.mapEntries fun _ _ hes => hes.erase k)

theorem reordered_erase (p : Path) (h : s.Reordered t) : (p.erase s).Reordered (p.erase t) := by
  induction p generalizing s t with
  | key k =>
      rw [erase_key]
      exact h.mapEntries fun _ _ hes => hes.erase k
  | keys ks => exact reordered_erase_keys ks h
  | push => exact h
  | each inner ih =>
      rw [erase_each]
      split
      · exact h.mapItems fun _ _ => ih
      · exact h
  | down k rest ih =>
      rw [erase_down]
      exact h.mapEntries fun _ _ hes => hes.modify k fun _ _ => ih

end Path

end TreePaths
