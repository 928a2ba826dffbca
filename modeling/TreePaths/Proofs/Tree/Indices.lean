import TreePaths.Proofs.Entries
import TreePaths.Projection.Basic

/-!
# Indices as keys

The elements of a sequence stand under their decimal indices once it is a mapping, and an index that
is not one of them holds nothing. `indexBound` is the least number above all indices that stand as
keys, and `nextIndex` is that number as long as it fits. So in a mapping whose index keys are those
below some number that fits, that number comes next.
-/

namespace TreePaths

namespace Tree

theorem indexed_append (n : Nat) (ts us : List Tree) :
    indexed n (ts ++ us) = indexed n ts ++ indexed (n + ts.length) us := by
  induction ts generalizing n with
  | nil => rfl
  | cons t ts ih =>
      rw [List.cons_append, indexed_cons, indexed_cons, ih, List.cons_append, List.length_cons,
        Nat.add_right_comm, Nat.add_assoc]

theorem indexed_eq_mapIdx (n : Nat) (ts : List Tree) :
    indexed n ts = ts.mapIdx fun i t => ((n + i).repr, t) := by
  induction ts generalizing n with
  | nil => rfl
  | cons t ts ih =>
      rw [indexed_cons, ih, List.mapIdx_cons]
      simp only [Nat.add_zero, Nat.add_right_comm n 1, Nat.add_assoc]

/-- An element of a sequence is found under its index. -/
theorem lookup_indexed (n j : Nat) (ts : List Tree) :
    Entries.lookup (n + j).repr (indexed n ts) = ts[j]? := by
  induction ts generalizing n j with
  | nil => simp
  | cons t ts ih =>
      rw [indexed_cons, Entries.lookup_cons]
      cases j with
      | zero => simp
      | succ j =>
          have hne : n.repr ≠ (n + (j + 1)).repr := by
            intro h
            have := Decimal.repr_injective h
            omega
          rw [if_neg hne, show n + (j + 1) = n + 1 + j by omega, ih, List.getElem?_cons_succ]

theorem mem_keys_indexed {ts : List Tree} {k : String} :
    k ∈ (indexed 0 ts).keys ↔ ∃ j < ts.length, k = j.repr := by
  rw [keys_indexed, List.mem_map]
  simp only [List.mem_range'_1, Nat.zero_le, Nat.zero_add, true_and]
  constructor
  · rintro ⟨j, hj, rfl⟩
    exact ⟨j, hj, rfl⟩
  · rintro ⟨j, hj, rfl⟩
    exact ⟨j, hj, rfl⟩

end Tree

namespace Entries

theorem foldl_max_le_iff {ns : List Nat} {n m : Nat} :
    ns.foldl max n ≤ m ↔ n ≤ m ∧ ∀ i ∈ ns, i ≤ m := by
  induction ns generalizing n with
  | nil => simp
  | cons i ns ih => rw [List.foldl_cons, ih, Nat.max_le, List.forall_mem_cons, and_assoc]

/-- The bound of the indices is at most whatever exceeds all of them. -/
theorem indexBound_le_iff {es : Entries Tree} {m : Nat} :
    indexBound es ≤ m ↔ ∀ k ∈ keys es, ∀ i, Decimal.index? k = some i → i < m := by
  rw [indexBound, foldl_max_le_iff]
  simp only [Nat.zero_le, true_and, List.forall_mem_map, List.mem_filterMap, Nat.succ_le_iff]
  constructor
  · intro h k hk i hi
    exact h i ⟨k, hk, hi⟩
  · rintro h i ⟨k, hk, hi⟩
    exact h k hk i hi

theorem lt_indexBound {es : Entries Tree} {k : String} (hk : k ∈ keys es) {i : Nat}
    (hi : Decimal.index? k = some i) : i < indexBound es :=
  indexBound_le_iff.1 (Nat.le_refl _) k hk i hi

/-- Nothing wraps around while there is an index above all that are in use. -/
theorem nextIndex_eq_indexBound {es : Entries Tree} (h : indexBound es < Decimal.wordSize) :
    nextIndex es = indexBound es :=
  Nat.mod_eq_of_lt h

/-- If the index keys are those below a number, that number is their bound. -/
theorem indexBound_eq {es : Entries Tree} {m : Nat} (hm : m ≤ Decimal.wordSize)
    (hlt : ∀ k ∈ keys es, ∀ i, Decimal.index? k = some i → i < m)
    (hmem : ∀ i < m, i.repr ∈ keys es) : indexBound es = m := by
  refine Nat.le_antisymm (indexBound_le_iff.2 hlt) ?_
  cases m with
  | zero => exact Nat.zero_le _
  | succ m => exact lt_indexBound (hmem m (Nat.lt_succ_self m)) (Decimal.index?_repr hm)

theorem indexBound_indexed {ts : List Tree} (h : ts.length ≤ Decimal.wordSize) :
    indexBound (Tree.indexed 0 ts) = ts.length := by
  refine indexBound_eq h ?_ fun i hi => Tree.mem_keys_indexed.2 ⟨i, hi, rfl⟩
  intro k hk i hi
  obtain ⟨j, hj, rfl⟩ := Tree.mem_keys_indexed.1 hk
  rw [Decimal.index?_repr (Nat.lt_of_lt_of_le hj h), Option.some.injEq] at hi
  exact hi ▸ hj

end Entries

end TreePaths
