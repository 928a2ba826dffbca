import TreePaths.Projection.Basic
import TreePaths.Proofs.Outcome

/-!
# Which directives a tree spells

Where a tree spells directives at all, they do not depend on the place that a message would give,
and each element or entry spells exactly one of them. `SpelledByItem` and `SpelledByEntry` say which
one, so that a container spells a list of directives if and only if its members spell them one by
one. A tree that spells directives at some level of nesting spells the same ones further out.
-/

namespace TreePaths

theorem Tree.text?_eq_some_iff {t : Tree} {s : String} : t.text? = some s ↔ t = .ofText s := by
  constructor
  · intro h
    unfold text? at h
    split at h
    · rw [Option.some.inj h, ofText]
    · cases h
  · rintro rfl
    rfl

theorem Tree.mapping?_eq_some_iff {t : Tree} {es : Entries Tree} :
    t.mapping? = some es ↔ t = .mapping es := by
  cases t <;> simp [mapping?]

namespace Text

theorem begins_append (needle rest : String) : begins needle (needle ++ rest) = true := by
  have h : afterStart? needle.toList (needle ++ rest).toList = some rest.toList :=
    afterStart?_eq_some_iff.2 String.toList_append
  rw [begins, h]
  rfl

theorem withoutStart_append (needle rest : String) :
    withoutStart needle (needle ++ rest) = rest := by
  have h : afterStart? needle.toList (needle ++ rest).toList = some rest.toList :=
    afterStart?_eq_some_iff.2 String.toList_append
  rw [withoutStart, h]
  exact String.ofList_toList

end Text

namespace Directive

theorem exists_ofText_eq (s : String) : ∃ field target, ofText s = copy field target := by
  unfold ofText
  split
  · exact ⟨_, _, rfl⟩
  · exact ⟨_, _, rfl⟩

/-- What an element of a sequence spells, where the sequence is at a level of nesting. -/
inductive SpelledByItem (limit level : Nat) : Tree → Directive → Prop
  | slot {place : String} {t : Tree} {body : List Directive} (hc : t.isContainer = true)
      (h : ofTree limit (level + 1) place t = .ok body) : SpelledByItem limit level t (slot body)
  | copy (s : String) : SpelledByItem limit level (.ofText s) (ofText s)

/-- What an entry of a mapping spells, where the mapping is at a level of nesting. -/
inductive SpelledByEntry (limit level : Nat) : String × Tree → Directive → Prop
  | group {place k : String} {t : Tree} {body : List Directive}
      (hk : Text.begins groupMark k = true) (h : ofTree limit (level + 1) place t = .ok body) :
      SpelledByEntry limit level (k, t) (group (Text.withoutStart groupMark k) body)
  | copy {k : String} (hk : Text.begins groupMark k = false) (s : String) :
      SpelledByEntry limit level (k, .ofText s) (ofText s)
  | bucket {place k : String} {t : Tree} {body : List Directive}
      (hk : Text.begins groupMark k = false) (ht : t.text? = none)
      (h : ofTree limit (level + 1) place t = .ok body) :
      SpelledByEntry limit level (k, t) (bucket k body)

theorem ofLeaf_eq_ok_iff {place : String} {t : Tree} {d : Directive} :
    ofLeaf place t = .ok d ↔ ∃ s, t = .ofText s ∧ d = ofText s := by
  unfold ofLeaf
  cases ht : t.text? with
  | none =>
      constructor
      · intro h
        cases h
      · rintro ⟨s, rfl, -⟩
        cases ht
  | some s =>
      obtain rfl := Tree.text?_eq_some_iff.1 ht
      constructor
      · intro h
        exact ⟨s, rfl, (Except.ok.inj h).symm⟩
      · rintro ⟨r, he, rfl⟩
        cases he
        rfl

theorem ofTree_leaf {t : Tree} (ht : t.isContainer = false) (limit level : Nat) (place : String) :
    ofTree limit level place t =
      if limit < level then .error (.tooDeep limit) else (ofLeaf place t).map ([·]) := by
  cases t with
  | sequence ts => cases ht
  | mapping es => cases ht
  | _ => rw [ofTree] <;> simp

theorem ofTree_of_lt {limit level : Nat} (h : limit < level) (place : String) (t : Tree) :
    ofTree limit level place t = .error (.tooDeep limit) := by
  cases t with
  | sequence ts => rw [ofTree, if_pos h]
  | mapping es => rw [ofTree, if_pos h]
  | _ => rw [ofTree_leaf rfl, if_pos h]

theorem ofTree_leaf_iff {limit level : Nat} {place : String} {t : Tree} {ds : List Directive}
    (ht : t.isContainer = false) :
    ofTree limit level place t = .ok ds ↔
      level ≤ limit ∧ ∃ s, t = .ofText s ∧ ds = [ofText s] := by
  rw [ofTree_leaf ht]
  split
  · simp [Nat.not_le.2, *]
  · rename_i hlevel
    simp only [Outcome.map_eq_ok_iff, ofLeaf_eq_ok_iff, Nat.not_lt.1 hlevel, true_and]
    constructor
    · rintro ⟨d, ⟨s, rfl, rfl⟩, rfl⟩
      exact ⟨s, rfl, rfl⟩
    · rintro ⟨s, rfl, rfl⟩
      exact ⟨_, ⟨s, rfl, rfl⟩, rfl⟩

/-- The place matters for messages only. -/
theorem ofTree_place {limit level : Nat} {place : String} {t : Tree} {ds : List Directive}
    (h : ofTree limit level place t = .ok ds) (place' : String) :
    ofTree limit level place' t = .ok ds := by
  cases hc : t.isContainer with
  | false => rwa [ofTree_leaf_iff hc] at h ⊢
  | true =>
      cases t with
      | sequence ts => simpa only [ofTree] using h
      | mapping es => simpa only [ofTree] using h
      | _ => cases hc

theorem ofItems_eq_ok_iff {limit level index : Nat} {ts : List Tree} {ds : List Directive} :
    ofItems limit level index ts = .ok ds ↔ List.Forall₂ (SpelledByItem limit level) ts ds := by
  induction ts generalizing index ds with
  | nil =>
      rw [ofItems, List.forall₂_nil_left_iff]
      exact ⟨fun h => (Except.ok.inj h).symm, fun h => h ▸ rfl⟩
  | cons t ts ih =>
      rw [ofItems, Outcome.bind_eq_ok_iff, List.forall₂_cons_left_iff]
      simp only [Outcome.map_eq_ok_iff, ih]
      constructor
      · rintro ⟨d, hd, ds, hds, rfl⟩
        refine ⟨d, ds, ?_, hds, rfl⟩
        split at hd
        · rename_i hc
          obtain ⟨body, hbody, rfl⟩ := Outcome.map_eq_ok_iff.1 hd
          exact .slot hc hbody
        · obtain ⟨s, rfl, rfl⟩ := ofLeaf_eq_ok_iff.1 hd
          exact .copy s
      · rintro ⟨d, ds, hd, hds, rfl⟩
        refine ⟨d, ?_, ds, hds, rfl⟩
        cases hd with
        | slot hc h =>
            rw [if_pos hc, Outcome.map_eq_ok_iff]
            exact ⟨_, ofTree_place h _, rfl⟩
        | copy s =>
            rw [if_neg (by simp [Tree.ofText, Tree.isContainer]), ofLeaf_eq_ok_iff]
            exact ⟨s, rfl, rfl⟩

theorem ofEntries_eq_ok_iff {limit level : Nat} {es : Entries Tree} {ds : List Directive} :
    ofEntries limit level es = .ok ds ↔ List.Forall₂ (SpelledByEntry limit level) es ds := by
  induction es generalizing ds with
  | nil =>
      rw [ofEntries, List.forall₂_nil_left_iff]
      exact ⟨fun h => (Except.ok.inj h).symm, fun h => h ▸ rfl⟩
  | cons e es ih =>
      obtain ⟨k, t⟩ := e
      rw [ofEntries, Outcome.bind_eq_ok_iff, List.forall₂_cons_left_iff]
      simp only [Outcome.map_eq_ok_iff, ih]
      constructor
      · rintro ⟨d, hd, ds, hds, rfl⟩
        refine ⟨d, ds, ?_, hds, rfl⟩
        split at hd
        · rename_i hk
          obtain ⟨body, hbody, rfl⟩ := Outcome.map_eq_ok_iff.1 hd
          exact .group hk hbody
        · rename_i hk
          rw [Bool.not_eq_true] at hk
          split at hd
          · obtain ⟨s, rfl, rfl⟩ := ofLeaf_eq_ok_iff.1 hd
            exact .copy hk s
          · rename_i ht
            obtain ⟨body, hbody, rfl⟩ := Outcome.map_eq_ok_iff.1 hd
            exact .bucket hk (by simpa using ht) hbody
      · rintro ⟨d, ds, hd, hds, rfl⟩
        refine ⟨d, ?_, ds, hds, rfl⟩
        cases hd with
        | group hk h =>
            rw [if_pos hk, Outcome.map_eq_ok_iff]
            exact ⟨_, ofTree_place h _, rfl⟩
        | copy hk s =>
            rw [if_neg (by simp [hk]), if_pos (by simp [Tree.ofText, Tree.text?]),
              ofLeaf_eq_ok_iff]
            exact ⟨s, rfl, rfl⟩
        | bucket hk ht h =>
            rw [if_neg (by simp [hk]), if_neg (by simp [ht]), Outcome.map_eq_ok_iff]
            exact ⟨_, ofTree_place h _, rfl⟩

theorem ofTree_sequence_iff {limit level : Nat} {place : String} {ts : List Tree}
    {ds : List Directive} :
    ofTree limit level place (.sequence ts) = .ok ds ↔
      level ≤ limit ∧ List.Forall₂ (SpelledByItem limit level) ts ds := by
  rw [ofTree]
  split
  · simp [Nat.not_le.2, *]
  · simp [Nat.not_lt.1, ofItems_eq_ok_iff, *]

theorem ofTree_mapping_iff {limit level : Nat} {place : String} {es : Entries Tree}
    {ds : List Directive} :
    ofTree limit level place (.mapping es) = .ok ds ↔
      level ≤ limit ∧ List.Forall₂ (SpelledByEntry limit level) es ds := by
  rw [ofTree]
  split
  · simp [Nat.not_le.2, *]
  · simp [Nat.not_lt.1, ofEntries_eq_ok_iff, *]

/-- What a tree spells at some level it spells further out. -/
theorem ofTree_of_le {limit level outer : Nat} {place : String} {t : Tree} {ds : List Directive}
    (h : ofTree limit level place t = .ok ds) (hle : outer ≤ level) (place' : String) :
    ofTree limit outer place' t = .ok ds := by
  induction t using Tree.induction generalizing level outer place place' ds with
  | null =>
      rw [ofTree_leaf_iff rfl] at h ⊢
      exact ⟨Nat.le_trans hle h.1, h.2⟩
  | scalar a =>
      rw [ofTree_leaf_iff rfl] at h ⊢
      exact ⟨Nat.le_trans hle h.1, h.2⟩
  | sequence ts ih =>
      rw [ofTree_sequence_iff] at h ⊢
      refine ⟨Nat.le_trans hle h.1, ?_⟩
      obtain ⟨-, h⟩ := h
      induction h with
      | nil => exact .nil
      | cons hd _ ihs =>
          rw [List.forall_mem_cons] at ih
          refine .cons ?_ (ihs ih.2)
          cases hd with
          | slot hc h => exact .slot hc (ih.1 h (Nat.succ_le_succ hle) "")
          | copy s => exact .copy s
  | mapping es ih =>
      rw [ofTree_mapping_iff] at h ⊢
      refine ⟨Nat.le_trans hle h.1, ?_⟩
      obtain ⟨-, h⟩ := h
      induction h with
      | nil => exact .nil
      | cons hd _ ihs =>
          rw [List.forall_mem_cons] at ih
          refine .cons ?_ (ihs ih.2)
          cases hd with
          | group hk h => exact .group hk (ih.1 h (Nat.succ_le_succ hle) "")
          | copy hk s => exact .copy hk s
          | bucket hk ht h => exact .bucket hk ht (ih.1 h (Nat.succ_le_succ hle) "")

end Directive

theorem Projection.ofTree_eq_ok_iff {t : Tree} {o : ProjectionOptions} {p : Projection} :
    Projection.ofTree t o = .ok p ↔ Directive.ofTree o.maxDepth 0 "" t = .ok p.directives := by
  rw [Projection.ofTree, Outcome.map_eq_ok_iff]
  constructor
  · rintro ⟨ds, hds, rfl⟩
    exact hds
  · intro h
    exact ⟨p.directives, h, rfl⟩

end TreePaths
