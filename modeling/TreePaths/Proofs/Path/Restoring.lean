import TreePaths.Proofs.Path.Composition
import TreePaths.Proofs.Tree.Reordered

/-!
# Setting back what was taken out

What is taken out along a path of keys and set there again makes the tree what it was, except that
the entry is now the last one of its mapping (`same_set_splice`). For a removal leaves in place all
that leads to the key, so that nothing has to be created or converted on the way back.
-/

namespace TreePaths

namespace Tree.Reordered

variable {s t c d : Tree}

theorem at? (h : s.Reordered t) (ks : List String) :
    Option.Rel Reordered (s.at? ks) (t.at? ks) := by
  induction ks generalizing s t with
  | nil => exact .some h
  | cons k ks ih => exact rel_bind (h.child? k) fun _ _ => ih

theorem putAt (h : s.Reordered t) (ks : List String) (hcd : c.Reordered d) :
    (s.putAt ks c).Reordered (t.putAt ks d) := by
  induction ks generalizing s t with
  | nil => exact hcd
  | cons k ks ih =>
      exact reordered_mapping_iff.2 (h.entries.update k reordered_empty fun _ _ => ih)

end Tree.Reordered

namespace Path

theorem reordered_set_erase {init : List String} {last : String} {t v : Tree} (ht : t.Reordered t)
    (hv : t.at? (init ++ [last]) = some v) :
    ((under init (key last)).set ((under init (key last)).erase t) v).Reordered t := by
  rw [Tree.at?_append_singleton, Option.bind_eq_some_iff] at hv
  obtain ⟨c, hc, hlast⟩ := hv
  cases c with
  | mapping es =>
      have hmoved : (Tree.mapping (Entries.insert last v (Entries.erase last es))).Reordered
          (.mapping es) := by
        have hself := ht.at? init
        rw [hc, Option.rel_some_some, Tree.reordered_mapping_iff] at hself
        exact Tree.reordered_mapping_iff.2 (hself.insert_erase hlast)
      have hset : (under init (key last)).set ((under init (key last)).erase t) v =
          t.putAt init (.mapping (Entries.insert last v (Entries.erase last es))) := by
        rw [set, erase_under hc, write_under_of_at? (Tree.at?_putAt init t _), Tree.putAt_putAt]
        rfl
      have hback := ht.putAt init hmoved
      rwa [Tree.putAt_eq_self hc, ← hset] at hback
  | _ => cases hlast

/-- What a path of keys takes out of a tree is what stood there, and setting it again gives a tree
equal to the first one. -/
theorem same_set_splice {ks : List String} {p : Path} (hp : ofKeys? ks = some p) {t : Tree}
    (ht : t.WellFormed) (h : (p.remove t).1 = true) :
    (p.splice t).1 = p.get t ∧ t.at? ks = some (p.splice t).1 ∧
      (p.set (p.splice t).2 (p.splice t).1).same t = true := by
  obtain ⟨v, hv⟩ : ∃ v, t.at? ks = some v := by
    rwa [remove, removes_ofKeys? hp, Option.isSome_iff_exists] at h
  have htaken : (p.splice t).1 = v := by
    rw [splice, get_ofKeys? hp, hv, Option.getD_some]
  rw [htaken]
  obtain ⟨init, last, rfl, rfl⟩ := ofKeys?_eq_some hp
  exact ⟨htaken.symm, hv, (reordered_set_erase (Tree.reordered_self_iff.2 ht) hv).same⟩

/-- The value that is taken out and set again may be null. -/
theorem same_set_splice_null :
    ofKeys? ["a", "x"] = some (down "a" (key "x")) ∧
      (Tree.mapping [("a", .mapping [("x", .null), ("y", .empty)])]).WellFormed ∧
      ((down "a" (key "x")).remove
        (.mapping [("a", .mapping [("x", .null), ("y", .empty)])])).1 = true ∧
      (down "a" (key "x")).splice (.mapping [("a", .mapping [("x", .null), ("y", .empty)])]) =
        (.null, .mapping [("a", .mapping [("y", .empty)])]) ∧
      ((down "a" (key "x")).set (.mapping [("a", .mapping [("y", .empty)])]) .null).same
        (.mapping [("a", .mapping [("x", .null), ("y", .empty)])]) = true := by
  have hp : ofKeys? ["a", "x"] = some (down "a" (key "x")) := rfl
  have ht : (Tree.mapping [("a", .mapping [("x", .null), ("y", .empty)])]).WellFormed := by
    simp [Tree.WellFormed, Tree.WellFormedEntries, Entries.Distinct, Tree.empty]
  obtain ⟨-, -, hsame⟩ := same_set_splice hp ht rfl
  exact ⟨hp, ht, rfl, rfl, hsame⟩

end Path

end TreePaths
