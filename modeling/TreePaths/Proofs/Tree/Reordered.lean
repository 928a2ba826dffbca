import Mathlib.Data.List.Forall2
import TreePaths.Proofs.Entries.Related
import TreePaths.Tree.Equality

/-!
# Trees that differ in the order of entries

`Reordered s t` says that two trees differ at most in the order in which their mappings list their
entries. A tree is related to itself if and only if no mapping in it repeats a key, so a function
that takes reordered trees to reordered trees also keeps trees well-formed. Reordered trees are
equal as documents.

Between mappings this is `Entries.Related`, with reordered trees under each key, and a tree that is
written into offers related entries whatever its shape. That is all that the arguments about paths
and projections need to know about the order of entries.
-/

namespace TreePaths

namespace Tree

/-- Trees that differ at most in the order of entries: their mappings have the same keys, each once,
in some order, and reordered trees under each of them. -/
inductive Reordered : Tree → Tree → Prop
  | null : Reordered null null
  | scalar (a : Scalar) : Reordered (scalar a) (scalar a)
  | sequence {ts us : List Tree} (h : List.Forall₂ Reordered ts us) :
      Reordered (sequence ts) (sequence us)
  | mapping {es fs : Entries Tree} (hd : es.Distinct) (hk : es.keys.Perm fs.keys)
      (h : ∀ k s t, Entries.lookup k es = some s → Entries.lookup k fs = some t → Reordered s t) :
      Reordered (mapping es) (mapping fs)

theorem reordered_mapping_iff {es fs : Entries Tree} :
    Reordered (mapping es) (mapping fs) ↔ Entries.Related Reordered es fs := by
  constructor
  · intro h
    cases h with
    | mapping hd hk h =>
        refine ⟨hd, hk.nodup_iff.1 hd, fun k => rel_of_isSome_eq ?_ (h k)⟩
        have hmem : Entries.has k es = true ↔ Entries.has k fs = true := by
          rw [Entries.has_iff, Entries.has_iff, hk.mem_iff]
        exact Bool.eq_iff_iff.2 hmem
  · intro h
    refine .mapping h.left h.keys_perm fun k s t hs ht => ?_
    have hk := h.found k
    rwa [hs, ht, Option.rel_some_some] at hk

theorem reordered_sequence_iff {ts us : List Tree} :
    Reordered (sequence ts) (sequence us) ↔ List.Forall₂ Reordered ts us := by
  constructor
  · intro h
    cases h with
    | sequence h => exact h
  · exact .sequence

theorem reordered_empty : Reordered empty empty := reordered_mapping_iff.2 .nil

/-- A tree is a reordering of itself if and only if no mapping in it repeats a key. -/
theorem reordered_self_iff {t : Tree} : t.Reordered t ↔ t.WellFormed := by
  induction t using Tree.induction with
  | null => exact iff_of_true .null trivial
  | scalar a => exact iff_of_true (.scalar a) trivial
  | sequence ts ih =>
      rw [reordered_sequence_iff, List.forall₂_same, WellFormed, wellFormedItems_iff]
      exact forall₂_congr ih
  | mapping es ih =>
      rw [reordered_mapping_iff, WellFormed, wellFormedEntries_iff]
      constructor
      · intro h
        refine ⟨h.left, fun e he => (ih e he).1 ?_⟩
        have hk := h.found e.1
        rwa [Entries.lookup_of_mem h.left he, Option.rel_some_some] at hk
      · rintro ⟨hd, hw⟩
        refine ⟨hd, hd, fun k => rel_of_isSome_eq rfl fun s t hs ht => ?_⟩
        obtain rfl := Option.some.inj (hs.symm.trans ht)
        have he := Entries.mem_of_lookup hs
        exact (ih _ he).2 (hw _ he)

/-- The entries of a mapping may be listed in any order. -/
theorem reordered_of_perm {es fs : Entries Tree} (hw : (mapping es).WellFormed)
    (h : es.Perm fs) : (mapping es).Reordered (mapping fs) := by
  have hes := reordered_mapping_iff.1 (reordered_self_iff.2 hw)
  have hd : fs.Distinct := (h.map Prod.fst).nodup_iff.1 hes.left
  have hlookup := fun k => (Entries.lookup_perm hes.left h k).symm
  exact reordered_mapping_iff.2 (hes.congr_right hd hlookup)

theorem forall₂_reordered_trans {ts us vs : List Tree} (h : List.Forall₂ Reordered ts us)
    (h' : List.Forall₂ Reordered us vs)
    (ih : ∀ t ∈ ts, ∀ u v : Tree, t.Reordered u → u.Reordered v → t.Reordered v) :
    List.Forall₂ Reordered ts vs := by
  induction h generalizing vs with
  | nil => exact h'
  | cons htu _ ihs =>
      rw [List.forall_mem_cons] at ih
      cases h' with
      | cons huv h' => exact .cons (ih.1 _ _ htu huv) (ihs h' ih.2)

theorem Reordered.trans {s t u : Tree} (h : s.Reordered t) (h' : t.Reordered u) :
    s.Reordered u := by
  induction s using Tree.induction generalizing t u with
  | null =>
      cases h
      exact h'
  | scalar a =>
      cases h
      exact h'
  | sequence ts ih =>
      cases h with
      | sequence h =>
          cases h' with
          | sequence h' =>
              exact .sequence (forall₂_reordered_trans h h' fun t ht u v => ih t ht)
  | mapping es ih =>
      cases t with
      | mapping fs =>
          cases u with
          | mapping gs =>
              rw [reordered_mapping_iff] at h h' ⊢
              exact h.trans h' fun e he b c => ih e he
          | _ => cases h'
      | _ => cases h

/-! ## Equality as documents -/

theorem sameItems_of_forall₂ {ts us : List Tree}
    (h : List.Forall₂ (fun t u => t.same u = true) ts us) : sameItems ts us = true := by
  induction h with
  | nil => rfl
  | cons htu _ ih => simp [sameItems, htu, ih]

theorem sameEntries_of_lookup {es fs : Entries Tree}
    (h : ∀ e ∈ es, ∃ t, Entries.lookup e.1 fs = some t ∧ e.2.same t = true) :
    sameEntries es fs = true := by
  induction es with
  | nil => rfl
  | cons e es ih =>
      obtain ⟨k, s⟩ := e
      rw [List.forall_mem_cons] at h
      obtain ⟨⟨t, ht, hs⟩, h⟩ := h
      simp [sameEntries, ht, hs, ih h]

/-- Reordered trees are equal as documents. -/
theorem Reordered.same {s t : Tree} (h : s.Reordered t) : s.same t = true := by
  induction s using Tree.induction generalizing t with
  | null =>
      cases h
      rfl
  | scalar a =>
      cases h
      exact a.same_refl
  | sequence ts ih =>
      cases h with
      | sequence h =>
          refine sameItems_of_forall₂ (((List.forall₂_and_left _ _).2 ⟨ih, h⟩).imp ?_)
          intro t u htu
          exact htu.1 htu.2
  | mapping es ih =>
      cases t with
      | mapping fs =>
          rw [reordered_mapping_iff] at h
          have hs : sameEntries es fs = true := by
            refine sameEntries_of_lookup fun e he => ?_
            have hk := h.found e.1
            rw [Entries.lookup_of_mem h.left he] at hk
            obtain ⟨t, ht, het⟩ := exists_of_rel_some hk
            exact ⟨t, ht, ih e he het⟩
          simp [Tree.same, h.length_eq, hs]
      | _ => cases h

/-- A tree in which no mapping repeats a key is equal to itself. -/
theorem same_self {t : Tree} (h : t.WellFormed) : t.same t = true :=
  (reordered_self_iff.2 h).same

/-! ## Views of a tree -/

theorem related_indexed {R : Tree → Tree → Prop} {ts us : List Tree} (h : List.Forall₂ R ts us)
    (n : Nat) : Entries.Related R (indexed n ts) (indexed n us) where
  left := distinct_indexed n ts
  right := distinct_indexed n us
  found := by
    intro k
    induction h generalizing n with
    | nil => exact .none
    | cons htu _ ih =>
        rw [indexed_cons, indexed_cons, Entries.lookup_cons, Entries.lookup_cons]
        split
        · exact .some htu
        · exact ih (n + 1)

namespace Reordered

variable {s t : Tree}

theorem entries (h : s.Reordered t) : Entries.Related Reordered s.entries t.entries := by
  cases h with
  | null => exact .nil
  | scalar a => exact .nil
  | sequence h => exact related_indexed h 0
  | mapping hd hk h => exact reordered_mapping_iff.1 (.mapping hd hk h)

theorem items (h : s.Reordered t) : List.Forall₂ Reordered s.items t.items := by
  cases h with
  | sequence h => exact h
  | _ => exact .nil

theorem child? (h : s.Reordered t) (k : String) :
    Option.Rel Reordered (s.child? k) (t.child? k) := by
  cases h with
  | mapping hd hk h => exact (reordered_mapping_iff.1 (.mapping hd hk h)).found k
  | _ => exact .none

end Reordered

end Tree

end TreePaths
