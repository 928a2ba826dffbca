import TreePaths.Proofs.Projection.Replay
import TreePaths.Proofs.Projection.Slots

/-!
# Buckets and copies side by side

A projection that is spelled by a mapping without grouping keys has a bucket for each container in
it and copies a field for each text. As long as no copy goes to the key of a bucket, these do not
meddle with each other (`run_static`): a bucket holds what its projection makes of all records on
its own, however the records go through the directives in turns, and a key that is copied to holds
the value that was written last.
-/

namespace TreePaths

namespace Directive

variable {limit level : Nat}

/-- Without a grouping key, an entry spells a copy if it holds a text, and otherwise a bucket. -/
theorem copy_or_bucket_of_spelled {e : String × Tree} {d : Directive}
    (h : SpelledByEntry limit level e d) (hk : Text.begins groupMark e.1 = false) :
    (∃ s, e.2 = .ofText s ∧ d = ofText s) ∨
      e.2.isContainer = true ∧
        ∃ place body, d = bucket e.1 body ∧ ofTree limit (level + 1) place e.2 = .ok body := by
  cases h with
  | group hgroup h => rw [hgroup] at hk; cases hk
  | copy _ s => exact .inl ⟨s, rfl, rfl⟩
  | @bucket place k t body _ ht h =>
      cases hc : t.isContainer with
      | true => exact .inr ⟨rfl, place, body, rfl, h⟩
      | false =>
          obtain ⟨-, s, rfl, -⟩ := (ofTree_leaf_iff hc).1 h
          cases ht

theorem exists_eq_bucket {e : String × Tree} {d : Directive} (h : SpelledByEntry limit level e d)
    (hk : Text.begins groupMark e.1 = false) (hc : e.2.isContainer = true) :
    ∃ place body, d = bucket e.1 body ∧ ofTree limit (level + 1) place e.2 = .ok body := by
  rcases copy_or_bucket_of_spelled h hk with ⟨s, hs, -⟩ | ⟨-, hbucket⟩
  · rw [hs] at hc
    cases hc
  · exact hbucket

/-- The copies that entries without grouping keys spell are those that their texts name. -/
theorem filterMap_copied? {es : Entries Tree} {ds : List Directive}
    (h : List.Forall₂ (SpelledByEntry limit level) es ds)
    (hk : ∀ e ∈ es, Text.begins groupMark e.1 = false) :
    ds.filterMap copied? = Tree.copies (es.map (·.2)) := by
  induction h with
  | nil => rfl
  | @cons e d es ds hd _ ih =>
      rw [List.forall_mem_cons] at hk
      rw [List.map_cons, List.filterMap_cons]
      rcases copy_or_bucket_of_spelled hd hk.1 with ⟨s, hs, rfl⟩ | ⟨hc, _, body, rfl, -⟩
      · obtain ⟨field, target, hs'⟩ := exists_ofText_eq s
        rw [hs, copies_cons_ofText hs', ← ih hk.2, hs']
        rfl
      · rw [copies_cons_container hc, ← ih hk.2]
        rfl

/-- The copy that an entry spells is among those that the texts of all entries name. -/
theorem copy_or_bucket_of_mem {es : Entries Tree} {e : String × Tree} (he : e ∈ es)
    (hk : Text.begins groupMark e.1 = false) {d : Directive}
    (h : SpelledByEntry limit level e d) :
    (∃ c ∈ Tree.copies (es.map (·.2)), d = copy c.1 c.2) ∨
      e.2.isContainer = true ∧ ∃ body, d = bucket e.1 body := by
  rcases copy_or_bucket_of_spelled h hk with ⟨s, hs, rfl⟩ | ⟨hc, _, body, hbucket, -⟩
  · obtain ⟨field, target, hcopy⟩ := exists_ofText_eq s
    refine .inl ⟨(field, target), ?_, hcopy⟩
    refine List.mem_filterMap.2 ⟨e.2, List.mem_map_of_mem he, ?_⟩
    rw [Tree.text?_eq_some_iff.2 hs, Option.bind_some, hcopy]
    rfl
  · exact .inr ⟨hc, body, hbucket⟩

end Directive

namespace Visit

theorem key?_copy_iff {record : Entries Tree} {c : String × String} {k : String} :
    key? ⟨record, .copy c.1 c.2⟩ = some k ↔ Entries.lookup c.1 record ≠ none ∧ k = c.2 := by
  cases hv : Entries.lookup c.1 record <;> simp [key?, hv, eq_comm]

/-- The entry that a visit writes if it copies a value. -/
def written? : Visit → Option (String × Tree)
  | ⟨record, .copy field target⟩ => (Entries.lookup field record).map fun v => (target, v)
  | _ => none

theorem written?_eq_some_iff {j : Visit} {k : String} {v : Tree} :
    j.written? = some (k, v) ↔ j.key? = some k ∧ j.copied? = some v := by
  obtain ⟨record, d⟩ := j
  cases d with
  | copy field target =>
      cases hv : Entries.lookup field record <;> simp [written?, key?, copied?, hv]
  | _ => simp [written?, copied?]

/-- Where everything that happens under a key is copied, the last copy stays. -/
theorem foldl_change_of_copied {js : List Visit} {k : String}
    (h : ∀ j ∈ js, j.key? = some k → j.copied? ≠ none) (t : Tree) :
    (js.filter fun j => j.key? = some k).foldl (fun t j => j.change t) t =
      (Entries.lookup k (js.filterMap written?).reverse).getD t := by
  induction js generalizing t with
  | nil => rfl
  | cons j js ih =>
      rw [List.forall_mem_cons] at h
      by_cases hk : j.key? = some k
      · obtain ⟨v, hv⟩ := Option.ne_none_iff_exists'.1 (h.1 hk)
        have hchange : j.change t = v := by rw [change, hv, Option.getD_some]
        rw [List.filter_cons_of_pos (by simpa using hk), List.foldl_cons, ih h.2, hchange,
          List.filterMap_cons_some (written?_eq_some_iff.2 ⟨hk, hv⟩), List.reverse_cons,
          Entries.lookup_append, Entries.lookup_cons, if_pos rfl]
        cases Entries.lookup k (js.filterMap written?).reverse <;> rfl
      · rw [List.filter_cons_of_neg (by simpa using hk), ih h.2]
        cases hw : j.written? with
        | none => rw [List.filterMap_cons_none hw]
        | some e =>
            have hne : e.1 ≠ k := fun he => hk (he ▸ (written?_eq_some_iff.1 hw).1)
            rw [List.filterMap_cons_some hw, List.reverse_cons, Entries.lookup_append,
              Entries.lookup_cons, if_neg hne, Entries.lookup_nil, Option.or_none]

end Visit

namespace Projection

variable {p : Projection} {rs : List Tree}

/-- The copies of a projection write what the texts that spell them say. -/
theorem filterMap_written?_visits (p : Projection) (rs : List Tree) :
    (p.visits rs).filterMap Visit.written? =
      Tree.written (p.directives.filterMap Directive.copied?) rs := by
  rw [visits, Tree.written, List.filterMap_flatMap]
  have hrecord : ∀ record : Entries Tree,
      (Visit.ofRecord record p.directives).filterMap Visit.written? =
        (p.directives.filterMap Directive.copied?).filterMap fun c =>
          (Entries.lookup c.1 record).map fun v => (c.2, v) := by
    intro record
    rw [Visit.ofRecord, List.filterMap_map, List.filterMap_filterMap]
    refine List.filterMap_congr fun d _ => ?_
    cases d <;> rfl
  rw [Tree.mappings_eq_map, List.flatMap_map]
  simp only [hrecord]
  rfl

/-- If a bucket alone is at a key, all that happens there is that its records go through its
body. -/
theorem foldl_change_bucket {before after body : List Directive} {k : String}
    (hp : p.directives = before ++ .bucket k body :: after)
    (h : ∀ d ∈ before ++ after, ∀ record, Visit.key? ⟨record, d⟩ ≠ some k) :
    ((p.visits rs).filter fun j => j.key? = some k).foldl (fun t j => j.change t) .empty =
      run ⟨body⟩ rs := by
  have hnone : ∀ record, ∀ ds : List Directive, (∀ d ∈ ds, Visit.key? ⟨record, d⟩ ≠ some k) →
      (Visit.ofRecord record ds).filter (fun j => j.key? = some k) = [] := by
    intro record ds hds
    rw [List.filter_eq_nil_iff, Visit.ofRecord, List.forall_mem_map]
    simpa using hds
  have hrecord : ∀ record, (Visit.ofRecord record p.directives).filter
      (fun j => j.key? = some k) = [⟨record, .bucket k body⟩] := by
    intro record
    obtain ⟨hbefore, hafter⟩ := List.forall_mem_append.1 h
    have hb := hnone record before fun d hd => hbefore d hd record
    have ha := hnone record after fun d hd => hafter d hd record
    rw [hp, Visit.ofRecord, List.map_append, List.map_cons, List.filter_append,
      List.filter_cons_of_pos (by simp [Visit.key?]), ← Visit.ofRecord, hb, ← Visit.ofRecord, ha,
      List.nil_append]
  have hvisits : (p.visits rs).filter (fun j => j.key? = some k) =
      (rs.filterMap Tree.mapping?).map fun record => ⟨record, .bucket k body⟩ := by
    rw [visits, List.filter_flatMap, List.map_eq_flatMap]
    simp only [hrecord]
  rw [hvisits, Visit.foldl_change_eq_runAll, run_eq, visits, List.flatMap_map]
  · rfl
  · exact List.forall_mem_map.2 fun _ _ => rfl

section Static

variable {es : Entries Tree} {o : ProjectionOptions} {p : Projection}
  (hds : List.Forall₂ (Directive.SpelledByEntry o.maxDepth 0) es p.directives)
  (hk : ∀ e ∈ es, Text.begins Directive.groupMark e.1 = false)
include hds hk

theorem isSlot_eq_false : ∀ d ∈ p.directives, d.isSlot = false := by
  intro d hd
  obtain ⟨e, he, hspelled⟩ := Outcome.exists_of_mem_right hds hd
  rcases Directive.copy_or_bucket_of_mem he (hk e he) hspelled with
    ⟨c, -, rfl⟩ | ⟨-, body, rfl⟩ <;> rfl

/-- Something happens under a key if and only if it is that of a bucket or is copied to. -/
theorem mem_keys_visits_iff {rs : List Tree} (hne : Tree.mappings rs ≠ []) (k : String) :
    k ∈ (p.visits rs).filterMap Visit.key? ↔
      (∃ e ∈ es, e.2.isContainer = true ∧ k = e.1) ∨
        ∃ r ∈ Tree.mappings rs, ∃ c ∈ Tree.copies (es.map (·.2)),
          r.child? c.1 ≠ none ∧ k = c.2 := by
  rw [List.mem_filterMap]
  constructor
  · rintro ⟨⟨record, d⟩, hj, hkey⟩
    obtain ⟨hr, hd⟩ := mem_visits.1 hj
    obtain ⟨e, he, hspelled⟩ := Outcome.exists_of_mem_right hds hd
    rcases Directive.copy_or_bucket_of_mem he (hk e he) hspelled with
      ⟨c, hc, rfl⟩ | ⟨hc, body, rfl⟩
    · exact .inr ⟨_, Tree.mem_mappings.2 ⟨record, hr, rfl⟩, c, hc, Visit.key?_copy_iff.1 hkey⟩
    · exact .inl ⟨e, he, hc, (Option.some.inj hkey).symm⟩
  · rintro (⟨e, he, hc, rfl⟩ | ⟨r, hr, c, hc, hfound⟩)
    · obtain ⟨r, hr⟩ := List.exists_mem_of_ne_nil _ hne
      obtain ⟨record, hrecord, -⟩ := Tree.mem_mappings.1 hr
      obtain ⟨d, hd, hspelled⟩ := Outcome.exists_of_mem_left hds he
      obtain ⟨_, body, rfl, -⟩ := Directive.exists_eq_bucket hspelled (hk e he) hc
      exact ⟨⟨record, .bucket e.1 body⟩, mem_visits.2 ⟨hrecord, hd⟩, rfl⟩
    · obtain ⟨record, hrecord, rfl⟩ := Tree.mem_mappings.1 hr
      rw [← Directive.filterMap_copied? hds hk] at hc
      obtain ⟨d, hd, hcopy⟩ := List.mem_filterMap.1 hc
      obtain rfl := Directive.copied?_eq_some_iff.1 hcopy
      exact ⟨⟨record, .copy c.1 c.2⟩, mem_visits.2 ⟨hrecord, hd⟩, Visit.key?_copy_iff.2 hfound⟩

variable (hapart : ∀ c ∈ Tree.copies (es.map (·.2)), ∀ e ∈ es, e.2.isContainer = true → c.2 ≠ e.1)
include hapart

/-- The key of a container is a place for records because of its bucket alone. -/
theorem exists_bucket (hd : es.Distinct) {e : String × Tree} (he : e ∈ es)
    (hc : e.2.isContainer = true) :
    ∃ before body after, p.directives = before ++ .bucket e.1 body :: after ∧
      ofTree e.2 o = .ok ⟨body⟩ ∧
        ∀ d ∈ before ++ after, ∀ record, Visit.key? ⟨record, d⟩ ≠ some e.1 := by
  obtain ⟨es₁, es₂, d, before, after, hes, hp, hbefore, hspelled, hafter⟩ :=
    Outcome.exists_append_of_mem_left hds he
  obtain ⟨_, body, rfl, hbody⟩ := Directive.exists_eq_bucket hspelled (hk e he) hc
  have hq := Directive.ofTree_of_le hbody (Nat.zero_le _) ""
  refine ⟨before, body, after, hp, ofTree_eq_ok_iff.2 hq, fun d hmem record hkey => ?_⟩
  -- Another directive is spelled by another entry, so neither way can it change this key.
  obtain ⟨f, hf, hspelled⟩ := Outcome.exists_of_mem_right (List.rel_append hbefore hafter) hmem
  have hfes : f ∈ es := by
    rw [hes]
    exact List.perm_middle.symm.mem_iff.1 (List.mem_cons_of_mem e hf)
  rcases Directive.copy_or_bucket_of_mem hfes (hk f hfes) hspelled with
    ⟨c, hcopy, rfl⟩ | ⟨-, _, rfl⟩
  · exact hapart c hcopy e he hc (Visit.key?_copy_iff.1 hkey).2.symm
  · have hpairwise : es.Pairwise fun e f => e.1 ≠ f.1 := List.pairwise_map.1 hd
    rw [hes, List.pairwise_middle fun h => h.symm] at hpairwise
    exact List.rel_of_pairwise_cons hpairwise hf (Option.some.inj hkey).symm

/-- Everything that happens under a key that is copied to is a copy. -/
theorem copied?_ne_none {rs : List Tree} {c : String × String}
    (hc : c ∈ Tree.copies (es.map (·.2))) {j : Visit} (hj : j ∈ p.visits rs)
    (hkey : j.key? = some c.2) : j.copied? ≠ none := by
  obtain ⟨record, d⟩ := j
  obtain ⟨e, he, hspelled⟩ := Outcome.exists_of_mem_right hds (mem_visits.1 hj).2
  rcases Directive.copy_or_bucket_of_mem he (hk e he) hspelled with
    ⟨_, -, rfl⟩ | ⟨hcontainer, _, rfl⟩
  · exact (Visit.key?_copy_iff.1 hkey).1
  · exact absurd (Option.some.inj hkey).symm (hapart c hc e he hcontainer)

end Static

/-- Buckets and copies that do not go to the same keys leave each other alone. Each bucket holds
what its projection makes of all records, and each key that is copied to holds what was copied to it
last. -/
theorem run_static {es : Entries Tree} {o : ProjectionOptions} {p : Projection}
    (hp : ofTree (.mapping es) o = .ok p) (hd : es.Distinct)
    (hk : ∀ e ∈ es, Text.begins Directive.groupMark e.1 = false)
    (hapart : ∀ c ∈ Tree.copies (es.map (·.2)), ∀ e ∈ es, e.2.isContainer = true → c.2 ≠ e.1)
    (rs : List Tree) :
    (Tree.mappings rs ≠ [] →
      ∃ fs, p.run rs = .mapping fs ∧ Entries.Distinct fs ∧
        (∀ k, k ∈ Entries.keys fs ↔
          (∃ e ∈ es, e.2.isContainer = true ∧ k = e.1) ∨
            ∃ r ∈ Tree.mappings rs, ∃ c ∈ Tree.copies (es.map (·.2)),
              r.child? c.1 ≠ none ∧ k = c.2) ∧
        (∀ e ∈ es, e.2.isContainer = true →
          ∃ q, ofTree e.2 o = .ok q ∧ Entries.lookup e.1 fs = some (q.run rs)) ∧
        ∀ r ∈ Tree.mappings rs, ∀ c ∈ Tree.copies (es.map (·.2)), r.child? c.1 ≠ none →
          Entries.lookup c.2 fs =
            Entries.lookup c.2 (Tree.written (Tree.copies (es.map (·.2))) rs).reverse) ∧
    (Tree.mappings rs = [] → p.run rs = .empty) := by
  obtain ⟨-, hds⟩ := Directive.ofTree_mapping_iff.1 (ofTree_eq_ok_iff.1 hp)
  constructor
  · intro hne
    have hmem := mem_keys_visits_iff hds hk hne
    refine ⟨_, run_eq_mapping (isSlot_eq_false hds hk) rs, ?_, fun k => ?_, fun e he hc => ?_,
      fun r hr c hc hfound => ?_⟩
    · rw [Entries.Distinct, Entries.keys_map_self]
      exact nodup_eraseDups _
    · rw [Entries.keys_map_self, List.mem_eraseDups, hmem]
    · obtain ⟨before, body, after, hbucket, hq, halone⟩ := exists_bucket hds hk hapart hd he hc
      have hkey := (hmem e.1).2 (.inl ⟨e, he, hc, rfl⟩)
      refine ⟨⟨body⟩, hq, ?_⟩
      rw [Entries.lookup_map_self, if_pos (List.mem_eraseDups.2 hkey),
        foldl_change_bucket hbucket halone]
    · have hkey := (hmem c.2).2 (.inr ⟨r, hr, c, hc, hfound, rfl⟩)
      have hcopied : ∀ j ∈ p.visits rs, j.key? = some c.2 → j.copied? ≠ none :=
        fun _ hj hkey => copied?_ne_none hds hk hapart hc hj hkey
      obtain ⟨v, hv⟩ := Option.ne_none_iff_exists'.1 (Tree.lookup_written_ne_none hr hc hfound)
      rw [Entries.lookup_map_self, if_pos (List.mem_eraseDups.2 hkey),
        Visit.foldl_change_of_copied hcopied, filterMap_written?_visits,
        Directive.filterMap_copied? hds hk, hv, Option.getD_some]
  · intro hnil
    rw [Tree.mappings_eq_map, List.map_eq_nil_iff] at hnil
    rw [run_eq, visits, hnil]
    rfl

theorem run_static_interleaved :
    ofTree (.mapping [("b", .sequence [.sequence [.ofText "d"]]), ("x", .ofText "n|who"),
        ("y", .ofText "m|who")]) {} =
        .ok ⟨[.bucket "b" [.slot [.copy "d" "d"]], .copy "n" "who", .copy "m" "who"]⟩ ∧
      ∃ fs, run ⟨[.bucket "b" [.slot [.copy "d" "d"]], .copy "n" "who", .copy "m" "who"]⟩
          [.mapping [("d", .ofInt 1), ("m", .ofInt 2), ("n", .ofInt 3)], .null,
            .mapping [("n", .ofInt 4)]] = .mapping fs ∧
        (∃ q, ofTree (.sequence [.sequence [.ofText "d"]]) {} = .ok q ∧
          Entries.lookup "b" fs = some (q.run
            [.mapping [("d", .ofInt 1), ("m", .ofInt 2), ("n", .ofInt 3)], .null,
              .mapping [("n", .ofInt 4)]])) ∧
        Entries.lookup "who" fs = some (.ofInt 4) := by
  have h : ofTree (.mapping [("b", .sequence [.sequence [.ofText "d"]]), ("x", .ofText "n|who"),
      ("y", .ofText "m|who")]) {} =
      .ok ⟨[.bucket "b" [.slot [.copy "d" "d"]], .copy "n" "who", .copy "m" "who"]⟩ := by cbv
  obtain ⟨hrun, -⟩ := run_static h (by decide) (by decide +kernel) (by decide +kernel)
    [.mapping [("d", .ofInt 1), ("m", .ofInt 2), ("n", .ofInt 3)], .null,
      .mapping [("n", .ofInt 4)]]
  obtain ⟨fs, hfs, -, -, hbuckets, hcopies⟩ := hrun (by decide +kernel)
  refine ⟨h, fs, hfs, hbuckets _ (.head _) rfl, ?_⟩
  rw [hcopies _ (.tail _ (.head _)) ("n", "who") (by decide +kernel) (by decide +kernel)]
  decide +kernel

end Projection

end TreePaths
