import TreePaths.Proofs.Keymap.Reordered
import TreePaths.Proofs.Path.Divergence

/-!
# Writing through a keymap

The alternatives of a keymap are written one after another. If any two of them diverge, their order
does not matter: neighbours may be swapped, and what follows keeps reordered trees reordered.
-/

namespace TreePaths.Keymap

open TreePaths.Tree (Reordered)

variable {t v w : Tree}

theorem reordered_write_perm {ps qs : List Path} (h : ps.Perm qs)
    (hd : ps.Pairwise Path.Diverges) (mode : Write) (hv : v.Reordered v) (ht : t.Reordered t) :
    (write mode ⟨ps⟩ t v).Reordered (write mode ⟨qs⟩ t v) := by
  induction h generalizing t with
  | nil => exact ht
  | cons p _ ih => exact ih (List.pairwise_cons.1 hd).2 (p.reordered_write mode hv ht)
  | swap p q ps =>
      have hqp : q.Diverges p := (List.pairwise_cons.1 hd).1 p List.mem_cons_self
      exact reordered_write mode ⟨ps⟩ (Path.reordered_write_comm hqp mode mode hv hv ht) hv
  | trans hpq _ ih ih' =>
      have hd' := (hpq.pairwise_iff fun h => h.symm).1 hd
      exact (ih hd ht).trans (ih' hd' ht)

/-- Writes along diverging paths may be done in either order, and the alternatives of a keymap that
diverge from each other may be listed in any order. -/
theorem same_write_of_diverges {p q : Path} (h : p.Diverges q) {k l : Keymap}
    (hk : k.paths.Pairwise Path.Diverges) (hl : k.paths.Perm l.paths) (ht : t.WellFormed)
    (hv : v.WellFormed) (hw : w.WellFormed) :
    (∀ mode mode', (q.write mode' w (p.write mode v t)).same
      (p.write mode v (q.write mode' w t)) = true) ∧
    (k.set t v).same (l.set t v) = true ∧ (k.add t v).same (l.add t v) = true := by
  rw [← Tree.reordered_self_iff] at ht hv hw
  exact ⟨fun mode mode' => (Path.reordered_write_comm h mode mode' hv hw ht).same,
    (reordered_write_perm hl hk .set hv ht).same, (reordered_write_perm hl hk .add hv ht).same⟩

theorem same_write_of_diverges_sequence :
    (Path.down "s" (.key "a")).Diverges (.down "s" (.down "0" .push)) ∧
      [Path.down "s" (.key "a"), .down "s" (.down "0" .push)].Pairwise Path.Diverges ∧
      [Path.down "s" (.key "a"), .down "s" (.down "0" .push)].Perm
        [.down "s" (.down "0" .push), .down "s" (.key "a")] ∧
      (Tree.mapping [("s", .sequence [.ofInt 1, .ofInt 2])]).WellFormed ∧
      ((Path.down "s" (.down "0" .push)).add ((Path.down "s" (.key "a")).set
          (.mapping [("s", .sequence [.ofInt 1, .ofInt 2])]) .null) .empty).same
        ((Path.down "s" (.key "a")).set ((Path.down "s" (.down "0" .push)).add
          (.mapping [("s", .sequence [.ofInt 1, .ofInt 2])]) .empty) .null) = true ∧
      (Keymap.set ⟨[.down "s" (.key "a"), .down "s" (.down "0" .push)]⟩
          (.mapping [("s", .sequence [.ofInt 1, .ofInt 2])]) .null).same
        (Keymap.set ⟨[.down "s" (.down "0" .push), .down "s" (.key "a")]⟩
          (.mapping [("s", .sequence [.ofInt 1, .ofInt 2])]) .null) = true := by
  have h : (Path.down "s" (.key "a")).Diverges (.down "s" (.down "0" .push)) :=
    ⟨["s"], "a", "0", .key "a", .down "0" .push, rfl, rfl, rfl, rfl, by decide⟩
  have hk : [Path.down "s" (.key "a"), .down "s" (.down "0" .push)].Pairwise Path.Diverges :=
    List.pairwise_pair.2 h
  have hl : [Path.down "s" (.key "a"), .down "s" (.down "0" .push)].Perm
      [.down "s" (.down "0" .push), .down "s" (.key "a")] := .swap ..
  have ht : (Tree.mapping [("s", .sequence [.ofInt 1, .ofInt 2])]).WellFormed := by
    simp [Tree.WellFormed, Tree.WellFormedEntries, Tree.WellFormedItems, Entries.Distinct,
      Tree.ofInt]
  have hw : Tree.empty.WellFormed := Tree.reordered_self_iff.1 Tree.reordered_empty
  obtain ⟨hpaths, hset, -⟩ :=
    same_write_of_diverges (v := .null) h (k := ⟨_⟩) (l := ⟨_⟩) hk hl ht trivial hw
  exact ⟨h, hk, hl, ht, hpaths .set .add, hset⟩

end TreePaths.Keymap
