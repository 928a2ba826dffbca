import TreePaths.Proofs.Entries
import TreePaths.Proofs.Projection.Spelling

/-!
# Reading records again

A projection without slots may be given the same records a second time without any effect
(`run_append_self`). The second pass starts from another tree than the first one, so it does not
repeat it step by step. What it does repeat is what happens under each key: if anything is copied
there, the last copy and what follows it decide, whatever the tree was before; if nothing is, then
everything that happens there happens further down, and the same argument applies to it.

A record on its way through a directive is a `Visit`, so that all that happens under one key, for
all records and all directives together, is again a list of visits.
-/

namespace TreePaths

theorem eraseDups_append_self {α : Type} [DecidableEq α] (xs : List α) :
    (xs ++ xs).eraseDups = xs.eraseDups := by
  have hnone : xs.removeAll xs = [] := by
    rw [List.removeAll, List.filter_eq_nil_iff]
    simp
  rw [List.eraseDups_append, hnone, List.eraseDups_nil, List.append_nil]

/-- No sequence in a tree holds a container. -/
inductive Tree.FlatSequences : Tree → Prop
  | null : FlatSequences null
  | scalar (a : Scalar) : FlatSequences (scalar a)
  | sequence {ts : List Tree} (h : ∀ t ∈ ts, t.isContainer = false) : FlatSequences (sequence ts)
  | mapping {es : Entries Tree} (h : ∀ e ∈ es, FlatSequences e.2) : FlatSequences (mapping es)

namespace Directive

/-- Nothing in a directive files records in slots. -/
inductive SlotFree : Directive → Prop
  | copy (field target : String) : SlotFree (copy field target)
  | group {field : String} {body : List Directive} (h : ∀ d ∈ body, SlotFree d) :
      SlotFree (group field body)
  | bucket {k : String} {body : List Directive} (h : ∀ d ∈ body, SlotFree d) :
      SlotFree (bucket k body)

/-- Whether a directive itself files records in slots. -/
def isSlot : Directive → Bool
  | slot _ => true
  | _ => false

theorem SlotFree.isSlot_eq {d : Directive} (h : d.SlotFree) : d.isSlot = false := by
  cases h <;> rfl

theorem slotFree_ofText (s : String) : (ofText s).SlotFree := by
  obtain ⟨field, target, hs⟩ := exists_ofText_eq s
  rw [hs]
  exact .copy field target

/-- Only a container in a sequence spells a slot. -/
theorem slotFree_of_ofTree {limit level : Nat} {place : String} {t : Tree} {ds : List Directive}
    (ht : t.FlatSequences) (h : ofTree limit level place t = .ok ds) : ∀ d ∈ ds, d.SlotFree := by
  induction t using Tree.induction generalizing level place ds with
  | null =>
      obtain ⟨-, s, hs, rfl⟩ := (ofTree_leaf_iff rfl).1 h
      exact List.forall_mem_singleton.2 (slotFree_ofText s)
  | scalar a =>
      obtain ⟨-, s, hs, rfl⟩ := (ofTree_leaf_iff rfl).1 h
      exact List.forall_mem_singleton.2 (slotFree_ofText s)
  | sequence ts _ =>
      rw [ofTree_sequence_iff] at h
      intro d hd
      obtain ⟨t, hmem, hspelled⟩ := Outcome.exists_of_mem_right h.2 hd
      cases ht with
      | sequence hflat =>
          cases hspelled with
          | slot hc => rw [hflat t hmem] at hc; cases hc
          | copy s => exact slotFree_ofText s
  | mapping es ih =>
      rw [ofTree_mapping_iff] at h
      intro d hd
      obtain ⟨e, hmem, hspelled⟩ := Outcome.exists_of_mem_right h.2 hd
      cases ht with
      | mapping hflat =>
          cases hspelled with
          | group _ hb => exact .group (ih _ hmem (hflat _ hmem) hb)
          | copy _ s => exact slotFree_ofText s
          | bucket _ _ hb => exact .bucket (ih _ hmem (hflat _ hmem) hb)

end Directive

/-- A record on its way through a directive. -/
structure Visit where
  record : Entries Tree
  directive : Directive

namespace Visit

def run (j : Visit) (t : Tree) : Tree := j.directive.apply j.record t

def runAll (js : List Visit) (t : Tree) : Tree := js.foldl (fun t j => j.run t) t

/-- The visits of a record with several directives. -/
def ofRecord (record : Entries Tree) (ds : List Directive) : List Visit := ds.map (Visit.mk record)

/-- The key under which a visit changes a tree, if it changes it at all. -/
def key? : Visit → Option String
  | ⟨record, .copy field target⟩ => (Entries.lookup field record).map fun _ => target
  | ⟨record, .group field _⟩ => (Entries.lookup field record).bind Tree.bucketKey?
  | ⟨_, .bucket k _⟩ => some k
  | ⟨_, .slot _⟩ => none

/-- The value that a visit copies. -/
def copied? : Visit → Option Tree
  | ⟨record, .copy field _⟩ => Entries.lookup field record
  | _ => none

/-- The visits below the key that a visit amounts to if it copies nothing. -/
def body : Visit → List Visit
  | ⟨record, .group _ ds⟩ | ⟨record, .bucket _ ds⟩ | ⟨record, .slot ds⟩ => ofRecord record ds
  | ⟨_, .copy _ _⟩ => []

/-- What a visit makes of the tree under its key. -/
def change (j : Visit) (t : Tree) : Tree := j.copied?.getD (runAll j.body t)

theorem applyAll_eq (record : Entries Tree) (ds : List Directive) (t : Tree) :
    Directive.applyAll record ds t = runAll (ofRecord record ds) t := by
  induction ds generalizing t with
  | nil => rfl
  | cons d ds ih => exact ih _

theorem runAll_append (js ks : List Visit) (t : Tree) :
    runAll (js ++ ks) t = runAll ks (runAll js t) :=
  List.foldl_append

/-- A visit that is not to a slot changes a mapping at its key and nowhere else. -/
theorem run_mapping {j : Visit} (h : j.directive.isSlot = false) (es : Entries Tree) :
    j.run (.mapping es) =
      .mapping (j.key?.elim es fun k => Entries.update k .empty j.change es) := by
  obtain ⟨record, d⟩ := j
  cases d with
  | slot body => cases h
  | copy field target =>
      rw [run, Directive.apply, key?]
      cases hv : Entries.lookup field record with
      | none => rfl
      | some v => simp [change, copied?, hv, Entries.update]
  | group field body =>
      have hchange : change ⟨record, .group field body⟩ = Directive.applyAll record body :=
        funext fun t => (applyAll_eq record body t).symm
      rw [run, Directive.apply, key?, hchange]
      cases (Entries.lookup field record).bind Tree.bucketKey? <;> rfl
  | bucket k body =>
      have hchange : change ⟨record, .bucket k body⟩ = Directive.applyAll record body :=
        funext fun t => (applyAll_eq record body t).symm
      rw [run, Directive.apply, key?, hchange]
      rfl

theorem runAll_mapping {js : List Visit} (h : ∀ j ∈ js, j.directive.isSlot = false)
    (es : Entries Tree) :
    runAll js (.mapping es) =
      .mapping (js.foldl
        (fun es j => j.key?.elim es fun k => Entries.update k .empty j.change es) es) := by
  induction js generalizing es with
  | nil => rfl
  | cons j js ih =>
      rw [List.forall_mem_cons] at h
      rw [List.foldl_cons, ← ih h.2, ← run_mapping h.1]
      rfl

theorem runAll_empty {js : List Visit} (h : ∀ j ∈ js, j.directive.isSlot = false) :
    runAll js .empty = .mapping ((js.filterMap key?).eraseDups.map fun k =>
      (k, (js.filter fun j => j.key? = some k).foldl (fun t j => j.change t) .empty)) := by
  rw [Tree.empty, runAll_mapping h]
  exact congrArg Tree.mapping (Entries.foldl_update key? .empty change js)

/-- Once a value is copied to a key, what was there before does not matter. -/
theorem foldl_change_congr {js : List Visit} (h : ∃ j ∈ js, j.copied? ≠ none) (s t : Tree) :
    js.foldl (fun t j => j.change t) s = js.foldl (fun t j => j.change t) t := by
  induction js generalizing s t with
  | nil => simp at h
  | cons j js ih =>
      rw [List.foldl_cons, List.foldl_cons]
      cases hv : j.copied? with
      | none =>
          refine ih ?_ _ _
          simpa [hv] using h
      | some v => rw [change, change, hv, Option.getD_some, Option.getD_some]

/-- Where nothing is copied to a key, all that happens there happens further down. -/
theorem foldl_change_eq_runAll {js : List Visit} (h : ∀ j ∈ js, j.copied? = none) (t : Tree) :
    js.foldl (fun t j => j.change t) t = runAll (js.flatMap body) t := by
  induction js generalizing t with
  | nil => rfl
  | cons j js ih =>
      rw [List.forall_mem_cons] at h
      rw [List.flatMap_cons, runAll_append, List.foldl_cons, ih h.2, change, h.1, Option.getD_none]

theorem slotFree_of_mem_body {i j : Visit} (hj : j.directive.SlotFree) (hi : i ∈ j.body) :
    i.directive.SlotFree ∧ sizeOf i.directive < sizeOf j.directive := by
  obtain ⟨record, d⟩ := j
  cases hj with
  | copy field target => cases hi
  | @group field body h =>
      obtain ⟨d, hd, rfl⟩ := List.mem_map.1 hi
      have hlt := List.sizeOf_lt_of_mem hd
      exact ⟨h d hd, by simp; omega⟩
  | @bucket k body h =>
      obtain ⟨d, hd, rfl⟩ := List.mem_map.1 hi
      have hlt := List.sizeOf_lt_of_mem hd
      exact ⟨h d hd, by simp; omega⟩

/-- Visits without slots that are all made again change nothing. -/
theorem runAll_append_self {n : Nat} {js : List Visit}
    (h : ∀ j ∈ js, j.directive.SlotFree ∧ sizeOf j.directive < n) :
    runAll (js ++ js) .empty = runAll js .empty := by
  induction n generalizing js with
  | zero =>
      have hjs : js = [] := by
        refine List.eq_nil_iff_forall_not_mem.2 fun j hj => ?_
        exact Nat.not_lt_zero _ (h j hj).2
      rw [hjs]
      rfl
  | succ n ih =>
      have hfree : ∀ j ∈ js, j.directive.isSlot = false := fun j hj => (h j hj).1.isSlot_eq
      have hfree' : ∀ j ∈ js ++ js, j.directive.isSlot = false := by
        rw [List.forall_mem_append]
        exact ⟨hfree, hfree⟩
      rw [runAll_empty hfree, runAll_empty hfree', List.filterMap_append, eraseDups_append_self]
      refine congrArg Tree.mapping (List.map_congr_left fun k _ => Prod.ext rfl ?_)
      rw [List.filter_append, List.foldl_append]
      by_cases hcopy : ∃ j ∈ js.filter fun j => j.key? = some k, j.copied? ≠ none
      · exact foldl_change_congr hcopy _ _
      · have hnone : ∀ j ∈ js.filter fun j => j.key? = some k, j.copied? = none := by
          intro j hj
          by_contra hne
          exact hcopy ⟨j, hj, hne⟩
        rw [foldl_change_eq_runAll hnone, foldl_change_eq_runAll hnone, ← runAll_append]
        refine ih fun i hi => ?_
        obtain ⟨j, hj, hi⟩ := List.mem_flatMap.1 hi
        obtain ⟨hslot, hsize⟩ := h j (List.mem_of_mem_filter hj)
        obtain ⟨hbody, hlt⟩ := slotFree_of_mem_body hslot hi
        exact ⟨hbody, by omega⟩

end Visit

namespace Projection

/-- The visits of some records to the directives of a projection. -/
def visits (p : Projection) (rs : List Tree) : List Visit :=
  (rs.filterMap Tree.mapping?).flatMap fun record => Visit.ofRecord record p.directives

theorem mem_visits {p : Projection} {rs : List Tree} {j : Visit} :
    j ∈ p.visits rs ↔ .mapping j.record ∈ rs ∧ j.directive ∈ p.directives := by
  rw [visits, List.mem_flatMap]
  constructor
  · rintro ⟨record, hrecord, hj⟩
    obtain ⟨r, hr, hmapping⟩ := List.mem_filterMap.1 hrecord
    obtain rfl := Tree.mapping?_eq_some_iff.1 hmapping
    obtain ⟨d, hd, rfl⟩ := List.mem_map.1 hj
    exact ⟨hr, hd⟩
  · rintro ⟨hr, hd⟩
    exact ⟨j.record, List.mem_filterMap.2 ⟨_, hr, rfl⟩, List.mem_map.2 ⟨_, hd, rfl⟩⟩

theorem directive_mem_of_mem_visits {p : Projection} {rs : List Tree} {j : Visit}
    (h : j ∈ p.visits rs) : j.directive ∈ p.directives :=
  (mem_visits.1 h).2

theorem visits_append (p : Projection) (rs ss : List Tree) :
    p.visits (rs ++ ss) = p.visits rs ++ p.visits ss := by
  rw [visits, List.filterMap_append, List.flatMap_append]
  rfl

theorem run_eq (p : Projection) (rs : List Tree) :
    p.run rs = Visit.runAll (p.visits rs) .empty := by
  rw [run]
  generalize Tree.empty = t
  induction rs generalizing t with
  | nil => rfl
  | cons r rs ih =>
      rw [List.foldl_cons, ih, addRecord, visits, visits]
      cases hr : r.mapping? with
      | none => rw [List.filterMap_cons_none hr]
      | some record =>
          rw [List.filterMap_cons_some hr, List.flatMap_cons, Visit.runAll_append,
            ← Visit.applyAll_eq]

/-- A projection that does not start with slots lists the keys in the order in which they are first
met, and what happens under a key depends on the visits to it only. -/
theorem run_eq_mapping {p : Projection} (h : ∀ d ∈ p.directives, d.isSlot = false)
    (rs : List Tree) :
    p.run rs = .mapping (((p.visits rs).filterMap Visit.key?).eraseDups.map fun k =>
      (k, ((p.visits rs).filter fun j => j.key? = some k).foldl (fun t j => j.change t)
        .empty)) := by
  rw [run_eq]
  exact Visit.runAll_empty fun j hj => h _ (directive_mem_of_mem_visits hj)

/-- A projection without slots makes the same of its records when it is given them twice. -/
theorem run_append_self {m : Tree} {o : ProjectionOptions} {p : Projection}
    (hm : m.FlatSequences) (hp : ofTree m o = .ok p) (rs : List Tree) :
    p.run (rs ++ rs) = p.run rs := by
  have hfree := Directive.slotFree_of_ofTree hm (ofTree_eq_ok_iff.1 hp)
  have hvisits : ∀ j ∈ p.visits rs,
      j.directive.SlotFree ∧ sizeOf j.directive < sizeOf p.directives := by
    intro j hj
    have hd := directive_mem_of_mem_visits hj
    exact ⟨hfree _ hd, List.sizeOf_lt_of_mem hd⟩
  rw [run_eq, run_eq, visits_append, Visit.runAll_append_self hvisits]

theorem run_append_self_colliding :
    (Tree.mapping [(":d", .mapping [("x", .ofText "n")]), ("y", .ofText "a|A")]).FlatSequences ∧
      ofTree (.mapping [(":d", .mapping [("x", .ofText "n")]), ("y", .ofText "a|A")]) {} =
        .ok ⟨[.group "d" [.copy "n" "n"], .copy "a" "A"]⟩ ∧
      run ⟨[.group "d" [.copy "n" "n"], .copy "a" "A"]⟩
          ([.mapping [("d", .ofText "A"), ("n", .ofInt 1), ("a", .sequence [.null])],
            .mapping [("d", .ofText "A"), ("n", .ofInt 2)]] ++
          [.mapping [("d", .ofText "A"), ("n", .ofInt 1), ("a", .sequence [.null])],
            .mapping [("d", .ofText "A"), ("n", .ofInt 2)]]) =
        .mapping [("A", .mapping [("0", .null), ("n", .ofInt 2)])] := by
  have hm : (Tree.mapping [(":d", .mapping [("x", .ofText "n")]),
      ("y", .ofText "a|A")]).FlatSequences :=
    .mapping (List.forall_mem_cons.2 ⟨.mapping (List.forall_mem_singleton.2 (.scalar _)),
      List.forall_mem_singleton.2 (.scalar _)⟩)
  have hp : ofTree (.mapping [(":d", .mapping [("x", .ofText "n")]), ("y", .ofText "a|A")]) {} =
      .ok ⟨[.group "d" [.copy "n" "n"], .copy "a" "A"]⟩ := by cbv
  refine ⟨hm, hp, ?_⟩
  rw [run_append_self hm hp]
  decide +kernel

end Projection

end TreePaths
