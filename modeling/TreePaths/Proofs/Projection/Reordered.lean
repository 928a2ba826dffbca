import TreePaths.Projection.Basic
import TreePaths.Proofs.Keymap.Reordered

/-!
# The order of entries cannot be observed

A projection takes records that differ in the order of their entries to trees that do, even though
buckets are listed in the order in which their keys are met and slots are filed under the next free
index. Together with the laws of keymaps this says that no operation lets the order of entries leak
into anything but the order of entries (`reordered_operations`).
-/

namespace TreePaths

open TreePaths.Tree (Reordered)

theorem Entries.Related.nextIndex_eq {R : Tree → Tree → Prop} {es fs : Entries Tree}
    (h : Entries.Related R es fs) : es.nextIndex = fs.nextIndex := by
  have hbound : es.indexBound = fs.indexBound :=
    ((h.keys_perm.filterMap _).map _).foldl_eq' (fun _ _ _ _ _ => Nat.max_right_comm ..) 0
  rw [Entries.nextIndex, hbound, Entries.nextIndex]

namespace Tree.Reordered

variable {s t : Tree}

theorem bucketKey?_eq (h : s.Reordered t) : s.bucketKey? = t.bucketKey? := by
  cases h <;> rfl

variable {f g : Tree → Tree}

theorem fillBucket (h : s.Reordered t) (k : String)
    (hfg : ∀ s t : Tree, s.Reordered t → (f s).Reordered (g t)) :
    (s.fillBucket k f).Reordered (t.fillBucket k g) :=
  Tree.reordered_mapping_iff.2 (h.entries.update k Tree.reordered_empty hfg)

/-- A new slot goes to the same place, as it is the largest index in use that matters. -/
theorem pushSlot (h : s.Reordered t)
    (hfg : ∀ s t : Tree, s.Reordered t → (f s).Reordered (g t)) :
    (s.pushSlot f).Reordered (t.pushSlot g) := by
  have hslot := hfg _ _ Tree.reordered_empty
  have hlast : (Tree.sequence (s.items ++ [f .empty])).Reordered
      (.sequence (t.items ++ [g .empty])) :=
    .sequence (List.rel_append h.items (.cons hslot .nil))
  cases h with
  | @mapping es fs hd hk h =>
      have hes := Tree.reordered_mapping_iff.1 (.mapping hd hk h)
      have hlen := hes.length_eq
      cases es with
      | nil =>
          cases fs with
          | nil => exact hlast
          | cons => cases hlen
      | cons e es =>
          cases fs with
          | nil => cases hlen
          | cons =>
              rw [Tree.pushSlot, Tree.pushSlot, hes.nextIndex_eq]
              exact Tree.reordered_mapping_iff.2 (hes.update _ Tree.reordered_empty hfg)
  | _ => exact hlast

end Tree.Reordered

namespace Directive

variable {record record' : Entries Tree} {s t : Tree}

theorem reordered_applyAll {ds : List Directive}
    (hds : ∀ d ∈ ds, ∀ s t : Tree, s.Reordered t →
      (d.apply record s).Reordered (d.apply record' t))
    (h : s.Reordered t) : (applyAll record ds s).Reordered (applyAll record' ds t) := by
  induction ds generalizing s t with
  | nil => exact h
  | cons d ds ih =>
      rw [List.forall_mem_cons] at hds
      exact ih hds.2 (hds.1 _ _ h)

theorem reordered_apply (hr : Entries.Related Reordered record record') (d : Directive)
    (h : s.Reordered t) : (d.apply record s).Reordered (d.apply record' t) := by
  induction d using Directive.induction generalizing s t with
  | copy field target =>
      have hk := hr.found field
      rw [apply, apply]
      generalize Entries.lookup field record = x at hk ⊢
      generalize Entries.lookup field record' = y at hk ⊢
      cases hk with
      | none => exact h
      | some hv => exact Tree.reordered_mapping_iff.2 (h.entries.insert target hv)
  | group field body ih =>
      have hkey := bind_eq_of_rel (hr.found field) fun _ _ hv => hv.bucketKey?_eq
      rw [apply, apply, ← hkey]
      cases (Entries.lookup field record).bind Tree.bucketKey? with
      | none => exact h
      | some k =>
          exact h.fillBucket k fun _ _ => reordered_applyAll fun d hd _ _ h => ih d hd h
  | bucket k body ih =>
      exact h.fillBucket k fun _ _ => reordered_applyAll fun d hd _ _ h => ih d hd h
  | slot body ih =>
      exact h.pushSlot fun _ _ => reordered_applyAll fun d hd _ _ h => ih d hd h

end Directive

namespace Projection

theorem reordered_addRecord (p : Projection) {r r' t t' : Tree} (hr : r.Reordered r')
    (h : t.Reordered t') : (p.addRecord t r).Reordered (p.addRecord t' r') := by
  cases hr with
  | mapping hd hk hr =>
      have hrecord := Tree.reordered_mapping_iff.1 (.mapping hd hk hr)
      exact Directive.reordered_applyAll
        (fun d _ _ _ h => Directive.reordered_apply hrecord d h) h
  | _ => exact h

theorem reordered_foldl (p : Projection) {rs rs' : List Tree} (hrs : List.Forall₂ Reordered rs rs')
    {t t' : Tree} (h : t.Reordered t') :
    (rs.foldl p.addRecord t).Reordered (rs'.foldl p.addRecord t') := by
  induction hrs generalizing t t' with
  | nil => exact h
  | cons hr _ ih => exact ih (p.reordered_addRecord hr h)

theorem reordered_run (p : Projection) {rs rs' : List Tree}
    (h : List.Forall₂ Reordered rs rs') : (p.run rs).Reordered (p.run rs') :=
  p.reordered_foldl h Tree.reordered_empty

end Projection

/-- Reordering the entries of what the operations are given reorders the entries of what they yield,
and does nothing else. -/
theorem reordered_operations (k : Keymap) {s s' v v' : Tree} (hs : s.Reordered s')
    (hv : v.Reordered v') (p : Projection) {rs rs' : List Tree}
    (hrs : List.Forall₂ Reordered rs rs') :
    (k.get s).Reordered (k.get s') ∧
      (k.set s v).Reordered (k.set s' v') ∧
      (k.add s v).Reordered (k.add s' v') ∧
      ((k.remove s).1 = (k.remove s').1 ∧ (k.remove s).2.Reordered (k.remove s').2) ∧
      ((k.splice s).1.Reordered (k.splice s').1 ∧ (k.splice s).2.Reordered (k.splice s').2) ∧
      (p.run rs).Reordered (p.run rs') :=
  ⟨k.reordered_get hs, k.reordered_write .set hs hv, k.reordered_write .add hs hv,
    k.reordered_remove hs, ⟨k.reordered_get hs, (k.reordered_remove hs).2⟩, p.reordered_run hrs⟩

theorem reordered_operations_swapped :
    (Tree.mapping [("a", .ofInt 1), ("b", .sequence [.null])]).Reordered
        (.mapping [("b", .sequence [.null]), ("a", .ofInt 1)]) ∧
      List.Forall₂ Reordered [.null, .mapping [("n", .ofInt 2), ("7", .null)]]
        [.null, .mapping [("7", .null), ("n", .ofInt 2)]] ∧
      (Keymap.get ⟨[.keys ["b", "a"], .down "b" (.each (.key "x"))]⟩
          (.mapping [("a", .ofInt 1), ("b", .sequence [.null])])).Reordered
        (.sequence [.mapping [("b", .sequence [.null]), ("a", .ofInt 1)], .sequence [.null]]) ∧
      (Projection.run ⟨[.copy "7" "7", .slot [.copy "n" "m"]]⟩
          [.null, .mapping [("n", .ofInt 2), ("7", .null)]]).Reordered
        (.mapping [("7", .null), ("8", .mapping [("m", .ofInt 2)])]) := by
  have hs : (Tree.mapping [("a", .ofInt 1), ("b", .sequence [.null])]).Reordered
      (.mapping [("b", .sequence [.null]), ("a", .ofInt 1)]) := by
    refine Tree.reordered_of_perm ?_ (.swap ..)
    simp [Tree.WellFormed, Tree.WellFormedEntries, Tree.WellFormedItems, Entries.Distinct,
      Tree.ofInt]
  have hr : (Tree.mapping [("n", .ofInt 2), ("7", .null)]).Reordered
      (.mapping [("7", .null), ("n", .ofInt 2)]) := by
    refine Tree.reordered_of_perm ?_ (.swap ..)
    simp [Tree.WellFormed, Tree.WellFormedEntries, Entries.Distinct, Tree.ofInt]
  have hrs : List.Forall₂ Reordered [.null, .mapping [("n", .ofInt 2), ("7", .null)]]
      [.null, .mapping [("7", .null), ("n", .ofInt 2)]] := .cons .null (.cons hr .nil)
  obtain ⟨hget, -, -, -, -, hrun⟩ :=
    reordered_operations ⟨[.keys ["b", "a"], .down "b" (.each (.key "x"))]⟩ hs .null
      ⟨[.copy "7" "7", .slot [.copy "n" "m"]]⟩ hrs
  exact ⟨hs, hrs, hget, hrun⟩

end TreePaths
