import TreePaths.Proofs.Text.Decimal
import TreePaths.Proofs.Tree.Indices

/-!
# Slots of their own

A slot that is pushed into a mapping is filed under `nextIndex`. As long as that is an index above
every index that stands as a key, however it is spelled there, its decimal text is a new key and the
slot becomes one more entry behind all others. The last index that 64 bits hold is the only one that
leaves no room above it. Where it is in use, counting starts again at zero.
-/

namespace TreePaths

namespace Entries

variable {es : Entries Tree}

theorem indexBound_le_wordSize : indexBound es ≤ Decimal.wordSize :=
  indexBound_le_iff.2 fun _ _ _ hi => (Decimal.index?_eq_some_iff.1 hi).2

/-- There is room above all indices in use just if the last index is not one of them. -/
theorem indexBound_lt_wordSize_iff :
    indexBound es < Decimal.wordSize ↔
      ∀ k ∈ keys es, ¬ Decimal.Spells k (Decimal.wordSize - 1) := by
  have hpos : 0 < Decimal.wordSize := by decide
  constructor
  · intro hlt k hk hspells
    have hlast := lt_indexBound hk (Decimal.index?_eq_some_iff.2 ⟨hspells, by omega⟩)
    omega
  · intro h
    have hle : indexBound es ≤ Decimal.wordSize - 1 := by
      refine indexBound_le_iff.2 fun k hk i hi => ?_
      obtain ⟨hspells, hlt⟩ := Decimal.index?_eq_some_iff.1 hi
      have hne : i ≠ Decimal.wordSize - 1 := fun he => h k hk (he ▸ hspells)
      omega
    omega

/-- After the last index comes zero, be it in use or not. -/
theorem nextIndex_of_last {k : String} (hk : k ∈ keys es)
    (hlast : Decimal.Spells k (Decimal.wordSize - 1)) : nextIndex es = 0 := by
  have hroom : ¬ indexBound es < Decimal.wordSize :=
    fun h => indexBound_lt_wordSize_iff.1 h k hk hlast
  have hbound : indexBound es = Decimal.wordSize :=
    Nat.le_antisymm indexBound_le_wordSize (Nat.not_lt.1 hroom)
  rw [nextIndex, hbound, Nat.mod_self]

example : Tree.pushSlot id (.mapping [("0", .null), ("18446744073709551615", .null)]) =
    .mapping [("0", .null), ("18446744073709551615", .null)] := by decide +kernel

theorem repr_nextIndex_not_mem (h : indexBound es < Decimal.wordSize) :
    (nextIndex es).repr ∉ keys es := by
  rw [nextIndex_eq_indexBound h]
  exact fun hmem => Nat.lt_irrefl _ (lt_indexBound hmem (Decimal.index?_repr h))

end Entries

namespace Tree

theorem pushSlot_mapping {es : Entries Tree} (hne : es ≠ [])
    (h : es.indexBound < Decimal.wordSize) (fill : Tree → Tree) :
    pushSlot fill (mapping es) = mapping (es ++ [(es.nextIndex.repr, fill empty)]) := by
  have hnew := Entries.repr_nextIndex_not_mem h
  obtain ⟨e, fs, rfl⟩ := List.exists_cons_of_ne_nil hne
  rw [pushSlot, Entries.update_of_not_mem hnew, Entries.insert_of_not_mem hnew]

/-- A slot, which starts as an empty mapping, becomes the last entry of the mapping that receives
it, under a key that is new in every spelling, and no other entry changes. A sequence that became a
mapping holds each element under its index, and the next slot goes under its length. -/
theorem pushSlot_appends :
    (∀ es : Entries Tree, es ≠ [] →
      (∀ k ∈ es.keys, ¬ Decimal.Spells k (Decimal.wordSize - 1)) →
      es.nextIndex.repr ∉ es.keys ∧
        Decimal.index? es.nextIndex.repr = some es.nextIndex ∧
        (∀ k ∈ es.keys, ∀ i < Decimal.wordSize, Decimal.Spells k i → i < es.nextIndex) ∧
        ∀ fill, pushSlot fill (mapping es) = mapping (es ++ [(es.nextIndex.repr, fill empty)])) ∧
    ∀ ts : List Tree, ts ≠ [] → ts.length < Decimal.wordSize →
      ∃ es : Entries Tree, (sequence ts).toMapping = mapping es ∧
        Entries.ofList (ts.mapIdx fun i t => (i.repr, t)) = es ∧
        es.length = ts.length ∧
        (∀ (i : Nat) (t : Tree), ts[i]? = some t → es[i]? = some (i.repr, t)) ∧
        ∀ fill, pushSlot fill (mapping es) = mapping (es ++ [(ts.length.repr, fill empty)]) := by
  constructor
  · intro es hne hroom
    have hlt := Entries.indexBound_lt_wordSize_iff.2 hroom
    have hnew := Entries.repr_nextIndex_not_mem hlt
    refine ⟨hnew, ?_, ?_, pushSlot_mapping hne hlt⟩
    · rw [Entries.nextIndex_eq_indexBound hlt]
      exact Decimal.index?_repr hlt
    · intro k hk i hi hspells
      rw [Entries.nextIndex_eq_indexBound hlt]
      exact Entries.lt_indexBound hk (Decimal.index?_eq_some_iff.2 ⟨hspells, hi⟩)
  · intro ts hne hlen
    have hindexed : indexed 0 ts = ts.mapIdx fun i t => (i.repr, t) := by
      simpa only [Nat.zero_add] using indexed_eq_mapIdx 0 ts
    have hbound : (indexed 0 ts).indexBound = ts.length :=
      Entries.indexBound_indexed (Nat.le_of_lt hlen)
    have hroom : (indexed 0 ts).indexBound < Decimal.wordSize := by rwa [hbound]
    have hentries : indexed 0 ts ≠ [] := by
      rw [hindexed]
      simpa using hne
    have hpush := pushSlot_mapping hentries hroom
    rw [Entries.nextIndex_eq_indexBound hroom, hbound] at hpush
    refine ⟨indexed 0 ts, rfl, ?_, ?_, ?_, hpush⟩
    · rw [← hindexed, Entries.ofList_of_distinct (distinct_indexed 0 ts)]
    · rw [hindexed, List.length_mapIdx]
    · intro i t hi
      rw [hindexed, List.getElem?_mapIdx, hi, Option.map_some]

theorem pushSlot_appends_spellings :
    (∀ k ∈ ["+9", "007", "7", "n", "18446744073709551616"],
      ¬ Decimal.Spells k (Decimal.wordSize - 1)) ∧
    pushSlot id (mapping [("+9", null), ("007", empty), ("7", null), ("n", null),
        ("18446744073709551616", null)]) =
      mapping [("+9", null), ("007", empty), ("7", null), ("n", null),
        ("18446744073709551616", null), ("10", empty)] ∧
    pushSlot id (sequence [null, ofText "0"]).toMapping =
      mapping [("0", null), ("1", ofText "0"), ("2", empty)] := by
  have hroom : ∀ k ∈ ["+9", "007", "7", "n", "18446744073709551616"],
      ¬ Decimal.Spells k (Decimal.wordSize - 1) := by decide +kernel
  have hnext : Entries.nextIndex [("+9", null), ("007", empty), ("7", null), ("n", null),
      ("18446744073709551616", null)] = 10 := by decide +kernel
  obtain ⟨-, -, -, hmapping⟩ := pushSlot_appends.1 [("+9", null), ("007", empty), ("7", null),
    ("n", null), ("18446744073709551616", null)] (by simp) hroom
  obtain ⟨es, hes, -, -, -, hsequence⟩ :=
    pushSlot_appends.2 [null, ofText "0"] (by simp) (by decide)
  refine ⟨hroom, ?_, ?_⟩
  · rw [hmapping, hnext]
    rfl
  · rw [hes, hsequence, ← mapping.inj hes]
    rfl

end Tree

end TreePaths
