import TreePaths.Proofs.Path.Frame
import TreePaths.Proofs.Path.Reordered

/-!
# Writing along diverging paths

Two paths diverge if they go on with different keys below the keys that they have in common. What is
written along one of them does not depend on what was written along the other one, so the two writes
may be done in either order; only the order in which new keys are listed depends on it. A sequence
on the common part becomes the same mapping by either write.
-/

namespace TreePaths

open TreePaths.Tree (Reordered)

namespace Path

/-- Below the keys that two paths have in common, they go on with different keys. -/
def Diverges (p q : Path) : Prop :=
  ∃ ks a b p' q', p = under ks p' ∧ q = under ks q' ∧ p'.StartsAt a ∧ q'.StartsAt b ∧ a ≠ b

theorem Diverges.symm {p q : Path} (h : p.Diverges q) : q.Diverges p := by
  obtain ⟨ks, a, b, p', q', hp, hq, ha, hb, hne⟩ := h
  exact ⟨ks, b, a, q', p', hq, hp, hb, ha, hne.symm⟩

/-- What stands under the first key of a path after a write, where there was a tree or nothing. -/
def stored (mode : Write) (v : Tree) : Path → Option Tree → Tree
  | key _, old => mode.over v old
  | down _ rest, old => rest.write mode v (old.getD rest.placeholder)
  | _, old => old.getD .null

variable {mode mode' : Write} {v w t : Tree} {a b : String} {p q : Path}

theorem write_of_startsAt (h : p.StartsAt a) (mode : Write) (v t : Tree) :
    p.write mode v t =
      .mapping (Entries.insert a (p.stored mode v (Entries.lookup a t.entries)) t.entries) := by
  cases p with
  | key k =>
      obtain rfl : k = a := h
      rfl
  | down k rest =>
      obtain rfl : k = a := h
      rfl
  | _ => exact h.elim

theorem StartsAt.startsBeside (h : p.StartsAt a) (hne : a ≠ b) : p.StartsBeside b := by
  cases p with
  | key k =>
      obtain rfl : k = a := h
      exact hne
  | down k rest =>
      obtain rfl : k = a := h
      exact hne
  | _ => exact h.elim

theorem lookup_write_write (hp : p.StartsAt a) (hq : q.StartsAt b) (hne : a ≠ b) (k : String) :
    Entries.lookup k (q.write mode' w (p.write mode v t)).entries =
      if b = k then some (q.stored mode' w (Entries.lookup b t.entries))
      else if a = k then some (p.stored mode v (Entries.lookup a t.entries))
      else Entries.lookup k t.entries := by
  rw [write_of_startsAt hp, write_of_startsAt hq, Tree.entries_mapping, Tree.entries_mapping,
    Entries.lookup_insert_of_ne hne, Entries.lookup_insert, Entries.lookup_insert]

theorem write_eq_mapping (h : p.StartsAt a) (mode : Write) (v t : Tree) :
    p.write mode v t = .mapping (p.write mode v t).entries := by
  rw [write_of_startsAt h, Tree.entries_mapping]

theorem reordered_write_comm_of_startsAt (hp : p.StartsAt a) (hq : q.StartsAt b) (hne : a ≠ b)
    (hv : v.Reordered v) (hw : w.Reordered w) (ht : t.Reordered t) :
    (q.write mode' w (p.write mode v t)).Reordered (p.write mode v (q.write mode' w t)) := by
  have hpq := reordered_write mode' hw q (reordered_write mode hv p ht)
  have hqp := reordered_write mode hv p (reordered_write mode' hw q ht)
  have hlookup : ∀ k, Entries.lookup k (p.write mode v (q.write mode' w t)).entries =
      Entries.lookup k (q.write mode' w (p.write mode v t)).entries := by
    intro k
    rw [lookup_write_write hq hp hne.symm, lookup_write_write hp hq hne]
    by_cases ha : a = k
    · have hb : b ≠ k := fun hb => hne (ha.trans hb.symm)
      rw [if_pos ha, if_neg hb, if_pos ha]
    · rw [if_neg ha, if_neg ha]
  rw [write_eq_mapping hq mode' w (p.write mode v t),
    write_eq_mapping hp mode v (q.write mode' w t)]
  exact Tree.reordered_mapping_iff.2 (hpq.entries.congr_right hqp.entries.left hlookup)

/-- Writes along diverging paths may be done in either order. -/
theorem reordered_write_comm (h : p.Diverges q) (mode mode' : Write) (hv : v.Reordered v)
    (hw : w.Reordered w) (ht : t.Reordered t) :
    (q.write mode' w (p.write mode v t)).Reordered (p.write mode v (q.write mode' w t)) := by
  obtain ⟨ks, a, b, p, q, rfl, rfl, ha, hb, hne⟩ := h
  induction ks generalizing t with
  | nil => exact reordered_write_comm_of_startsAt ha hb hne hv hw ht
  | cons k ks ih =>
      have hes := ht.entries
      have hchild := ih (getD_of_rel (hes.found k) Tree.reordered_empty)
      rw [under_cons, under_cons]
      refine Tree.reordered_mapping_iff.2
        ⟨(hes.left.insert k _).insert k _, (hes.left.insert k _).insert k _, fun l => ?_⟩
      -- Both paths go on below the same key, so a missing key is created empty for either of them.
      simp only [write, Tree.entries_mapping, Entries.lookup_update, if_true, Option.getD_some,
        placeholder_under (ha.startsBeside hne), placeholder_under (hb.startsBeside hne.symm)]
      split
      · exact .some hchild
      · exact hes.found l

end Path

end TreePaths
