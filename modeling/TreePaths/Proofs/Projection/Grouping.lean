import TreePaths.Proofs.Entries
import TreePaths.Proofs.Projection.Spelling

/-!
# Grouping

A projection that groups by one field cuts the records into buckets, one for each key that the field
gives, and reshapes every bucket on its own (`run_group`). The records come in any order, so while
they are read the buckets grow in turns; what one bucket holds depends on its own records only.
-/

namespace TreePaths

/-- The key that a record is grouped under by a field, if it is a mapping that has one. -/
def Tree.groupKey? (field : String) (r : Tree) : Option String :=
  (r.child? field).bind Tree.bucketKey?

/-- The keys that a field groups some records under, in the order in which they are first met. -/
def Tree.groupKeys (field : String) (rs : List Tree) : List String :=
  (rs.filterMap (Tree.groupKey? field)).eraseDups

/-- The records that a field groups under a key. -/
def Tree.groupAt (field k : String) (rs : List Tree) : List Tree :=
  rs.filter fun r => r.groupKey? field = some k

section Partition

variable {ρ : Type} (key : ρ → Option String)

theorem flatMap_filter_perm_of_nodup {ks : List String} (hks : ks.Nodup) (rs : List ρ) :
    (ks.flatMap fun k => rs.filter fun r => key r = some k).Perm
      (rs.filter fun r => (key r).any fun k => k ∈ ks) := by
  induction ks with
  | nil => simp
  | cons k ks ih =>
      obtain ⟨hk, hks⟩ := List.nodup_cons.1 hks
      have hsplit := List.filter_append_perm (fun r => decide (key r = some k))
        (rs.filter fun r => (key r).any fun l => l ∈ k :: ks)
      have hhere : (rs.filter fun r => (key r).any fun l => l ∈ k :: ks).filter
          (fun r => decide (key r = some k)) = rs.filter fun r => key r = some k := by
        rw [List.filter_filter]
        refine List.filter_congr fun r _ => ?_
        cases key r <;> simp_all
      have hthere : (rs.filter fun r => (key r).any fun l => l ∈ k :: ks).filter
          (fun r => !decide (key r = some k)) = rs.filter fun r => (key r).any fun l => l ∈ ks := by
        rw [List.filter_filter]
        refine List.filter_congr fun r _ => ?_
        cases hr : key r with
        | none => rfl
        | some l =>
            by_cases hl : l = k
            · subst hl
              simp [hk]
            · simp [hl]
      rw [hhere, hthere] at hsplit
      rw [List.flatMap_cons]
      exact ((ih hks).append_left _).trans hsplit

/-- Every record that has a key stands in one bucket, and no other record does. -/
theorem flatMap_filter_perm (rs : List ρ) :
    ((rs.filterMap key).eraseDups.flatMap fun k => rs.filter fun r => key r = some k).Perm
      (rs.filter fun r => (key r).isSome) := by
  have hsome : (rs.filter fun r => (key r).any fun k => k ∈ (rs.filterMap key).eraseDups) =
      rs.filter fun r => (key r).isSome := by
    refine List.filter_congr fun r hr => ?_
    cases hk : key r with
    | none => rfl
    | some k =>
        have : k ∈ rs.filterMap key := List.mem_filterMap.2 ⟨r, hr, hk⟩
        simpa using this
  rw [← hsome]
  exact flatMap_filter_perm_of_nodup key (nodup_eraseDups _) rs

end Partition

namespace Projection

/-- Grouping changes the bucket of a record's key as the body of the group changes a tree. -/
theorem addRecord_group (field : String) (q : Projection) (es : Entries Tree) (r : Tree) :
    addRecord ⟨[.group field q.directives]⟩ (.mapping es) r =
      .mapping ((r.groupKey? field).elim es fun k =>
        Entries.update k .empty (fun t => q.addRecord t r) es) := by
  cases hr : r.mapping? with
  | none => simp [addRecord, hr, Tree.groupKey?, Tree.child?]
  | some fields =>
      have hkey : r.groupKey? field = (Entries.lookup field fields).bind Tree.bucketKey? := by
        simp [Tree.groupKey?, Tree.child?, hr]
      simp only [addRecord, hr, Directive.applyAll, Directive.apply, ← hkey]
      cases r.groupKey? field with
      | none => rfl
      | some k => rfl

/-- Records that are grouped are cut into one bucket for each key, in the order in which the keys
are first met, and each bucket is reshaped on its own. -/
theorem run_group (field : String) (b : Tree) (o : ProjectionOptions) (p : Projection)
    (h : ofTree (.mapping [(Directive.groupMark ++ field, b)]) o = .ok p) (rs : List Tree) :
    ∃ q, ofTree b o = .ok q ∧
      p.run rs = .mapping ((Tree.groupKeys field rs).map fun k =>
        (k, q.run (Tree.groupAt field k rs))) ∧
      ((Tree.groupKeys field rs).flatMap fun k => Tree.groupAt field k rs).Perm
        (rs.filter fun r => (r.groupKey? field).isSome) := by
  obtain ⟨ds⟩ := p
  rw [ofTree_eq_ok_iff, Directive.ofTree_mapping_iff] at h
  obtain ⟨-, h⟩ := h
  obtain ⟨d, ds, hd, hnil, rfl⟩ := List.forall₂_cons_left_iff.1 h
  obtain rfl := List.forall₂_nil_left_iff.1 hnil
  cases hd with
  | copy hk s => simp [Text.begins_append] at hk
  | bucket hk ht hb => simp [Text.begins_append] at hk
  | @group place k t body hk hb =>
      have hq : ofTree b o = .ok ⟨body⟩ :=
        ofTree_eq_ok_iff.2 (Directive.ofTree_of_le hb (Nat.zero_le _) "")
      refine ⟨⟨body⟩, hq, ?_, flatMap_filter_perm _ rs⟩
      rw [Text.withoutStart_append, run, Tree.empty,
        List.foldl_hom Tree.mapping fun es r => (addRecord_group field ⟨body⟩ es r)]
      exact congrArg Tree.mapping (Entries.foldl_update _ _ _ _)

theorem run_group_interleaved :
    ofTree (.mapping [(":d", .sequence [.sequence [.ofText "n|who"]])]) {} =
        .ok ⟨[.group "d" [.slot [.copy "n" "who"]]]⟩ ∧
      ∃ q, ofTree (.sequence [.sequence [.ofText "n|who"]]) {} = .ok q ∧
        run ⟨[.group "d" [.slot [.copy "n" "who"]]]⟩
            [.mapping [("d", .ofText "A"), ("n", .ofInt 1)], .mapping [("d", .null)],
              .mapping [("n", .ofInt 2)], .ofInt 3, .mapping [("d", .sequence [])],
              .mapping [("d", .ofText "A"), ("n", .ofInt 4)]] =
          .mapping [("A", q.run [.mapping [("d", .ofText "A"), ("n", .ofInt 1)],
              .mapping [("d", .ofText "A"), ("n", .ofInt 4)]]),
            ("", q.run [.mapping [("d", .null)]])] := by
  have h : ofTree (.mapping [(":d", .sequence [.sequence [.ofText "n|who"]])]) {} =
      .ok ⟨[.group "d" [.slot [.copy "n" "who"]]]⟩ := by cbv
  obtain ⟨q, hq, hrun, -⟩ := run_group "d" _ _ _ h
    [.mapping [("d", .ofText "A"), ("n", .ofInt 1)], .mapping [("d", .null)],
      .mapping [("n", .ofInt 2)], .ofInt 3, .mapping [("d", .sequence [])],
      .mapping [("d", .ofText "A"), ("n", .ofInt 4)]]
  exact ⟨h, q, hq, hrun⟩

end Projection

end TreePaths
