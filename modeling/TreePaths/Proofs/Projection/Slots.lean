import TreePaths.Proofs.Projection.Spelling
import TreePaths.Proofs.Tree.Indices

/-!
# Slots

A projection that is spelled by a sequence files each record in slots, one for each container in the
sequence, and copies fields for the texts in it. The accumulated tree is a sequence of slots as long
as nothing was copied. The first copy turns it into a mapping, in which the slots stand under their
indices, and later slots go on counting there. `Accumulated` is what all these shapes have in common
with the lists of what was filed and what was copied so far.
-/

namespace TreePaths

/-- The records that a projection reshapes. -/
def Tree.mappings (rs : List Tree) : List Tree := rs.filter fun r => r.mapping?.isSome

/-- The elements of a sequence that spell slots. -/
def Tree.slots (ts : List Tree) : List Tree := ts.filter Tree.isContainer

/-- The field that a directive copies, and the key that it is copied to. -/
def Directive.copied? : Directive → Option (String × String)
  | copy field target => some (field, target)
  | _ => none

/-- The projections of the slots among some directives. -/
def Directive.slots (ds : List Directive) : List Projection :=
  ds.filterMap fun
    | slot body => some ⟨body⟩
    | _ => none

/-- The fields that the texts in a sequence copy, and the keys that they are copied to. -/
def Tree.copies (ts : List Tree) : List (String × String) :=
  ts.filterMap fun t => t.text?.bind fun s => (Directive.ofText s).copied?

/-- What is copied out of some records, in the order in which it is written. -/
def Tree.written (copies : List (String × String)) (rs : List Tree) : Entries Tree :=
  (mappings rs).flatMap fun r =>
    copies.filterMap fun c => (r.child? c.1).map fun v => (c.2, v)

/-- What some records fill the slots of some projections with, in the order in which they are
filed. -/
def Tree.filed (slots : List Projection) (rs : List Tree) : List Tree :=
  (mappings rs).flatMap fun r => slots.map fun q => q.run [r]

/-- The slot that was filed at an index. -/
def Tree.slotAt? (j : Nat) : Tree → Option Tree
  | .sequence ts => ts[j]?
  | .mapping es => Entries.lookup j.repr es
  | _ => none

/-- An accumulated tree in which some slots were filed and some values were written. -/
structure Accumulated (pushed : List Tree) (written : Entries Tree) (t : Tree) : Prop where
  /-- No target is an index. -/
  targets : ∀ k ∈ written.keys, Decimal.index? k = none
  distinct : t.entries.Distinct
  /-- The last value of a target is found, and else the slot at an index. -/
  lookup : ∀ k, Entries.lookup k t.entries =
    Entries.lookup k (written.reverse ++ Tree.indexed 0 pushed)
  /-- Nothing is a mapping before the first copy, but for the empty tree. -/
  unwritten : written = [] → t = if pushed = [] then .empty else .sequence pushed
  mapped : written ≠ [] → t = .mapping t.entries

namespace Accumulated

variable {pushed : List Tree} {written : Entries Tree} {t : Tree}

theorem empty : Accumulated [] [] .empty where
  targets := by simp
  distinct := List.nodup_nil
  lookup := fun _ => rfl
  unwritten := fun _ => rfl
  mapped := fun h => absurd rfl h

theorem mem_keys (h : Accumulated pushed written t) {k : String} :
    k ∈ t.entries.keys ↔ k ∈ written.keys ∨ ∃ j < pushed.length, k = j.repr := by
  have hk : k ∉ t.entries.keys ↔ k ∉ Entries.keys (written.reverse ++ Tree.indexed 0 pushed) := by
    rw [← Entries.lookup_eq_none_iff, ← Entries.lookup_eq_none_iff, h.lookup]
  rw [not_iff_not] at hk
  rw [hk, Entries.keys_append, List.mem_append, Entries.keys_reverse, List.mem_reverse,
    Tree.mem_keys_indexed]

theorem lookup_repr (h : Accumulated pushed written t) {j : Nat} (hj : j < Decimal.wordSize) :
    Entries.lookup j.repr t.entries = pushed[j]? := by
  have hnot : j.repr ∉ Entries.keys written.reverse := by
    intro hm
    rw [Entries.keys_reverse, List.mem_reverse] at hm
    have hnone := h.targets _ hm
    rw [Decimal.index?_repr hj] at hnone
    cases hnone
  have hfind := Tree.lookup_indexed 0 j pushed
  rw [Nat.zero_add] at hfind
  rw [h.lookup, Entries.lookup_append, Entries.lookup_eq_none_iff.2 hnot, Option.none_or, hfind]

theorem indexBound_eq (h : Accumulated pushed written t)
    (hlen : pushed.length ≤ Decimal.wordSize) : t.entries.indexBound = pushed.length := by
  refine Entries.indexBound_eq hlen ?_ ?_
  · intro k hk i hi
    rcases h.mem_keys.1 hk with hk | ⟨j, hj, rfl⟩
    · rw [h.targets k hk] at hi
      cases hi
    · rw [Decimal.index?_repr (Nat.lt_of_lt_of_le hj hlen), Option.some.injEq] at hi
      exact hi ▸ hj
  · intro i hi
    exact h.mem_keys.2 (.inr ⟨i, hi, rfl⟩)

theorem nextIndex_eq (h : Accumulated pushed written t) (hlen : pushed.length < Decimal.wordSize) :
    t.entries.nextIndex = pushed.length := by
  have hbound := h.indexBound_eq (Nat.le_of_lt hlen)
  rw [Entries.nextIndex_eq_indexBound (by rwa [hbound]), hbound]

/-- Copying a value writes it. -/
theorem copy (h : Accumulated pushed written t) {k : String} (hk : Decimal.index? k = none)
    (v : Tree) :
    Accumulated pushed (written ++ [(k, v)]) (.mapping (Entries.insert k v t.entries)) where
  targets := by
    rw [Entries.keys_append]
    exact List.forall_mem_append.2 ⟨h.targets, by simpa using hk⟩
  distinct := h.distinct.insert k v
  lookup := by
    intro l
    rw [Tree.entries_mapping, Entries.lookup_insert, h.lookup, List.reverse_append]
    rfl
  unwritten := by simp
  mapped := fun _ => rfl

theorem entries_ne_nil (h : Accumulated pushed written t) (hw : written ≠ []) :
    t.entries ≠ [] := by
  obtain ⟨⟨k, v⟩, hmem⟩ := List.exists_mem_of_ne_nil _ hw
  have hk : k ∈ t.entries.keys := h.mem_keys.2 (.inl (List.mem_map_of_mem hmem))
  intro he
  simp [he] at hk

theorem pushSlot_eq (h : Accumulated pushed written t) (hlen : pushed.length < Decimal.wordSize)
    (fill : Tree → Tree) :
    t.pushSlot fill =
      if written = [] then .sequence (pushed ++ [fill .empty])
      else .mapping (Entries.update pushed.length.repr .empty fill t.entries) := by
  by_cases hw : written = []
  · rw [if_pos hw, h.unwritten hw]
    by_cases hp : pushed = []
    · rw [if_pos hp, hp]
      rfl
    · rw [if_neg hp]
      rfl
  · obtain ⟨e, es, hes⟩ := List.exists_cons_of_ne_nil (h.entries_ne_nil hw)
    have hnext := h.nextIndex_eq hlen
    rw [hes] at hnext
    rw [if_neg hw, h.mapped hw, Tree.entries_mapping, hes, Tree.pushSlot, hnext]

/-- A slot goes to the next index, whatever shape the tree has. -/
theorem slot (h : Accumulated pushed written t) (hlen : pushed.length < Decimal.wordSize)
    (fill : Tree → Tree) :
    Accumulated (pushed ++ [fill .empty]) written (t.pushSlot fill) := by
  rw [h.pushSlot_eq hlen]
  by_cases hw : written = []
  · rw [if_pos hw]
    exact {
      targets := h.targets
      distinct := Tree.distinct_indexed 0 _
      lookup := fun _ => by rw [hw]; rfl
      unwritten := fun _ => by rw [if_neg (by simp)]
      mapped := fun hne => absurd hw hne }
  · have hfree : Entries.lookup pushed.length.repr t.entries = none := by
      rw [h.lookup_repr hlen]
      exact List.getElem?_eq_none (Nat.le_refl _)
    rw [if_neg hw, Entries.update_of_not_mem (Entries.lookup_eq_none_iff.1 hfree)]
    refine ⟨h.targets, h.distinct.insert _ _, fun k => ?_, fun he => absurd he hw, fun _ => rfl⟩
    rw [Tree.entries_mapping, Entries.lookup_insert, Tree.indexed_append, ← List.append_assoc,
      Entries.lookup_append, ← h.lookup, Nat.zero_add, Tree.indexed_cons, Entries.lookup_cons]
    by_cases hk : pushed.length.repr = k
    · rw [if_pos hk, if_pos hk, ← hk, hfree, Option.none_or]
    · rw [if_neg hk, if_neg hk, Tree.indexed_nil, Entries.lookup_nil, Option.or_none]

theorem slotAt?_eq (h : Accumulated pushed written t) (hlen : pushed.length ≤ Decimal.wordSize)
    {j : Nat} {u : Tree} (hj : pushed[j]? = some u) : t.slotAt? j = some u := by
  have hlt : j < pushed.length := (List.getElem?_eq_some_iff.1 hj).1
  by_cases hw : written = []
  · have hne : pushed ≠ [] := List.ne_nil_of_length_pos (by omega)
    rw [h.unwritten hw, if_neg hne]
    exact hj
  · rw [h.mapped hw]
    exact (h.lookup_repr (Nat.lt_of_lt_of_le hlt hlen)).trans hj

theorem exists_sequence_iff (h : Accumulated pushed written t) (hne : pushed ≠ []) :
    (∃ us, t = .sequence us ∧ us.length = pushed.length) ↔ written = [] := by
  constructor
  · rintro ⟨us, ht, -⟩
    by_contra hw
    have hm := h.mapped hw
    rw [ht] at hm
    cases hm
  · intro hw
    exact ⟨pushed, by rw [h.unwritten hw, if_neg hne], rfl⟩

theorem exists_mapping (h : Accumulated pushed written t) (hw : written ≠ []) :
    ∃ es, t = .mapping es ∧ Entries.Distinct es ∧
      (∀ k, k ∈ Entries.keys es ↔ (∃ j < pushed.length, k = j.repr) ∨ k ∈ written.keys) ∧
      ∀ k ∈ written.keys, Entries.lookup k es = Entries.lookup k written.reverse := by
  refine ⟨t.entries, h.mapped hw, h.distinct, fun k => by rw [h.mem_keys, or_comm], fun k hk => ?_⟩
  have hsome : Entries.lookup k written.reverse ≠ none := by
    rw [Ne, Entries.lookup_eq_none_iff, Entries.keys_reverse, List.mem_reverse]
    exact fun hnot => hnot hk
  obtain ⟨v, hv⟩ := Option.ne_none_iff_exists'.1 hsome
  rw [h.lookup, Entries.lookup_append, hv, Option.some_or]

end Accumulated

namespace Directive

theorem copied?_eq_some_iff {d : Directive} {c : String × String} :
    d.copied? = some c ↔ d = copy c.1 c.2 := by
  cases d <;> simp [copied?, Prod.ext_iff]

theorem copies_cons_ofText {s field target : String} (h : ofText s = copy field target)
    (ts : List Tree) : Tree.copies (.ofText s :: ts) = (field, target) :: Tree.copies ts := by
  have hs : ((Tree.ofText s).text?.bind fun s => (ofText s).copied?) = some (field, target) := by
    rw [Tree.text?_eq_some_iff.2 rfl, Option.bind_some, h]
    rfl
  exact List.filterMap_cons_some hs

theorem copies_cons_container {t : Tree} (h : t.isContainer = true) (ts : List Tree) :
    Tree.copies (t :: ts) = Tree.copies ts := by
  have ht : t.text? = none := by
    cases t with
    | sequence ts => rfl
    | mapping es => rfl
    | _ => cases h
  exact List.filterMap_cons_none (by rw [ht]; rfl)

theorem slots_cons_slot (body : List Directive) (ds : List Directive) :
    slots (slot body :: ds) = ⟨body⟩ :: slots ds := rfl

theorem slots_cons_copy (field target : String) (ds : List Directive) :
    slots (copy field target :: ds) = slots ds := rfl

variable {limit level : Nat} {ts : List Tree} {ds : List Directive}

/-- A record that goes through the directives of a sequence fills their slots and writes their
copies. -/
theorem accumulated_applyAll (hds : List.Forall₂ (SpelledByItem limit level) ts ds)
    (record : Entries Tree) (htargets : ∀ c ∈ Tree.copies ts, Decimal.index? c.2 = none)
    {pushed : List Tree} {written : Entries Tree} {t : Tree} (h : Accumulated pushed written t)
    (hlen : pushed.length + (slots ds).length ≤ Decimal.wordSize) :
    Accumulated (pushed ++ (slots ds).map fun q => q.run [.mapping record])
      (written ++ (Tree.copies ts).filterMap fun c =>
        (Entries.lookup c.1 record).map fun v => (c.2, v))
      (applyAll record ds t) := by
  induction hds generalizing pushed written t with
  | nil => simpa [Tree.copies, slots, applyAll] using h
  | cons hd _ ih =>
      rw [applyAll]
      cases hd with
      | @slot place b body hc hb =>
          rw [copies_cons_container hc] at htargets ⊢
          rw [slots_cons_slot, List.length_cons] at hlen
          have hslot := h.slot (by omega) (applyAll record body)
          have hrest := ih htargets hslot (by rw [List.length_append, List.length_singleton]; omega)
          rw [List.append_assoc] at hrest
          exact hrest
      | copy s =>
          obtain ⟨field, target, hs⟩ := exists_ofText_eq s
          rw [copies_cons_ofText hs, List.forall_mem_cons] at htargets
          rw [hs, slots_cons_copy] at hlen
          rw [copies_cons_ofText hs, hs, apply, slots_cons_copy]
          cases hv : Entries.lookup field record with
          | none => simpa [hv] using ih htargets.2 h hlen
          | some v =>
              have hrest := ih htargets.2 (h.copy htargets.1 v) hlen
              simpa [hv] using hrest

/-- The containers of a sequence spell the projections of its slots, also each on its own. -/
theorem forall₂_slots {o : ProjectionOptions}
    (hds : List.Forall₂ (SpelledByItem o.maxDepth level) ts ds) :
    List.Forall₂ (fun b q => Projection.ofTree b o = .ok q) (Tree.slots ts) (slots ds) := by
  induction hds with
  | nil => exact .nil
  | cons hd _ ih =>
      cases hd with
      | slot hc hb =>
          have hb := Directive.ofTree_of_le hb (Nat.zero_le _) ""
          rw [Tree.slots, List.filter_cons_of_pos hc, slots_cons_slot]
          exact .cons (Projection.ofTree_eq_ok_iff.2 hb) ih
      | copy s =>
          obtain ⟨field, target, hs⟩ := exists_ofText_eq s
          rw [Tree.slots, List.filter_cons_of_neg (by simp [Tree.ofText, Tree.isContainer]), hs,
            slots_cons_copy]
          exact ih

end Directive

namespace Tree

theorem mappings_eq_map (rs : List Tree) :
    mappings rs = (rs.filterMap mapping?).map mapping := by
  induction rs with
  | nil => rfl
  | cons r rs ih =>
      cases r with
      | mapping es => exact congrArg (mapping es :: ·) ih
      | _ => exact ih

theorem mem_mappings {rs : List Tree} {r : Tree} :
    r ∈ mappings rs ↔ ∃ record, mapping record ∈ rs ∧ r = mapping record := by
  rw [mappings_eq_map, List.mem_map]
  constructor
  · rintro ⟨record, hrecord, rfl⟩
    obtain ⟨r, hr, hmapping⟩ := List.mem_filterMap.1 hrecord
    obtain rfl := mapping?_eq_some_iff.1 hmapping
    exact ⟨record, hr, rfl⟩
  · rintro ⟨record, hr, rfl⟩
    exact ⟨record, List.mem_filterMap.2 ⟨_, hr, rfl⟩, rfl⟩

theorem mappings_append (rs ss : List Tree) : mappings (rs ++ ss) = mappings rs ++ mappings ss :=
  List.filter_append ..

theorem written_append (copies : List (String × String)) (rs ss : List Tree) :
    written copies (rs ++ ss) = written copies rs ++ written copies ss := by
  rw [written, mappings_append, List.flatMap_append]
  rfl

theorem filed_append (qs : List Projection) (rs ss : List Tree) :
    filed qs (rs ++ ss) = filed qs rs ++ filed qs ss := by
  rw [filed, mappings_append, List.flatMap_append]
  rfl

theorem filed_singleton (qs : List Projection) (record : Entries Tree) :
    filed qs [.mapping record] = qs.map fun q => q.run [.mapping record] :=
  List.append_nil _

theorem written_singleton (copies : List (String × String)) (record : Entries Tree) :
    written copies [.mapping record] =
      copies.filterMap fun c => (Entries.lookup c.1 record).map fun v => (c.2, v) :=
  List.append_nil _

/-- A field that is copied out of some record was written. -/
theorem lookup_written_ne_none {copies : List (String × String)} {rs : List Tree} {r : Tree}
    (hr : r ∈ mappings rs) {c : String × String} (hc : c ∈ copies)
    (hfound : r.child? c.1 ≠ none) : Entries.lookup c.2 (written copies rs).reverse ≠ none := by
  obtain ⟨v, hv⟩ := Option.ne_none_iff_exists'.1 hfound
  have hmem : (c.2, v) ∈ written copies rs :=
    List.mem_flatMap.2 ⟨r, hr, List.mem_filterMap.2 ⟨c, hc, by rw [hv]; rfl⟩⟩
  rw [Ne, Entries.lookup_eq_none_iff, Entries.keys_reverse, List.mem_reverse, not_not]
  exact List.mem_map_of_mem hmem

theorem length_filed (qs : List Projection) (rs : List Tree) :
    (filed qs rs).length = (mappings rs).length * qs.length := by
  unfold filed
  induction mappings rs with
  | nil => simp
  | cons r rs ih =>
      rw [List.flatMap_cons, List.length_append, ih, List.length_map, List.length_cons,
        Nat.succ_mul, Nat.add_comm]

/-- The slots of a record follow those of the records before it. -/
theorem getElem?_filed {qs : List Projection} {rs : List Tree} {i t : Nat} {r : Tree}
    {q : Projection} (hr : (mappings rs)[i]? = some r) (hq : qs[t]? = some q) :
    (filed qs rs)[i * qs.length + t]? = some (q.run [r]) := by
  have ht : t < qs.length := (List.getElem?_eq_some_iff.1 hq).1
  unfold filed
  generalize mappings rs = ms at hr ⊢
  induction ms generalizing i with
  | nil => simp at hr
  | cons m ms ih =>
      rw [List.flatMap_cons]
      cases i with
      | zero =>
          obtain rfl := Option.some.inj hr
          rw [List.getElem?_append_left (by rw [List.length_map]; omega), List.getElem?_map,
            Nat.zero_mul, Nat.zero_add, hq]
          rfl
      | succ i =>
          have hi : (i + 1) * qs.length + t = qs.length + (i * qs.length + t) := by
            rw [Nat.succ_mul]
            omega
          rw [hi, List.getElem?_append_right (by rw [List.length_map]; omega), List.length_map,
            Nat.add_sub_cancel_left, ih hr]

end Tree

namespace Projection

/-- What is accumulated from some records fills the slots and holds the copies of all of them. -/
theorem accumulated_run {limit level : Nat} {ts : List Tree} {p : Projection}
    (hp : List.Forall₂ (Directive.SpelledByItem limit level) ts p.directives)
    (htargets : ∀ c ∈ Tree.copies ts, Decimal.index? c.2 = none) {rs : List Tree}
    (hlen : (Tree.mappings rs).length * (Directive.slots p.directives).length ≤ Decimal.wordSize) :
    Accumulated (Tree.filed (Directive.slots p.directives) rs)
      (Tree.written (Tree.copies ts) rs) (p.run rs) := by
  induction rs using List.reverseRecOn with
  | nil => exact .empty
  | append_singleton rs r ih =>
      rw [Tree.mappings_append, List.length_append] at hlen
      rw [Tree.filed_append, Tree.written_append, run, List.foldl_append, ← run]
      have hrs := ih (Nat.le_trans (Nat.mul_le_mul_right _ (Nat.le_add_right _ _)) hlen)
      cases hr : r.mapping? with
      | none =>
          have hnone : Tree.mappings [r] = [] := by simp [Tree.mappings, hr]
          simpa [Tree.filed, Tree.written, hnone, addRecord, hr] using hrs
      | some record =>
          obtain rfl := Tree.mapping?_eq_some_iff.1 hr
          rw [Tree.filed_singleton, Tree.written_singleton]
          refine Directive.accumulated_applyAll hp record htargets hrs ?_
          have hone : (Tree.mappings [.mapping record]).length = 1 := rfl
          rwa [hone, Nat.add_mul, Nat.one_mul, ← Tree.length_filed] at hlen

theorem written_eq_nil_iff {copies : List (String × String)} {rs : List Tree} :
    Tree.written copies rs = [] ↔
      ∀ r ∈ Tree.mappings rs, ∀ c ∈ copies, r.child? c.1 = none := by
  simp [Tree.written, List.flatMap_eq_nil_iff, List.filterMap_eq_nil_iff]

/-- Each record fills each slot once, in order, and the slots stand in a sequence until something is
copied and under their indices from then on. -/
theorem run_slots {ts : List Tree} {o : ProjectionOptions} {p : Projection}
    (hp : ofTree (.sequence ts) o = .ok p)
    (htargets : ∀ c ∈ Tree.copies ts, Decimal.index? c.2 = none) (rs : List Tree)
    (hpos : 0 < (Tree.mappings rs).length * (Tree.slots ts).length)
    (hlt : (Tree.mappings rs).length * (Tree.slots ts).length < Decimal.wordSize) :
    (∀ i t r b, (Tree.mappings rs)[i]? = some r → (Tree.slots ts)[t]? = some b →
      ∃ q, ofTree b o = .ok q ∧
        (p.run rs).slotAt? (i * (Tree.slots ts).length + t) = some (q.run [r])) ∧
    ((∃ us, p.run rs = .sequence us ∧
        us.length = (Tree.mappings rs).length * (Tree.slots ts).length) ↔
      ∀ r ∈ Tree.mappings rs, ∀ c ∈ Tree.copies ts, r.child? c.1 = none) ∧
    ((∃ r ∈ Tree.mappings rs, ∃ c ∈ Tree.copies ts, r.child? c.1 ≠ none) →
      ∃ es, p.run rs = .mapping es ∧ Entries.Distinct es ∧
        (∀ k, k ∈ Entries.keys es ↔
          (∃ j < (Tree.mappings rs).length * (Tree.slots ts).length, k = j.repr) ∨
            k ∈ (Tree.written (Tree.copies ts) rs).keys) ∧
        ∀ k ∈ (Tree.written (Tree.copies ts) rs).keys,
          Entries.lookup k es =
            Entries.lookup k (Tree.written (Tree.copies ts) rs).reverse) := by
  obtain ⟨-, hds⟩ := Directive.ofTree_sequence_iff.1 (ofTree_eq_ok_iff.1 hp)
  have hslots := Directive.forall₂_slots hds
  have hs : (Tree.slots ts).length = (Directive.slots p.directives).length := hslots.length_eq
  rw [hs] at hpos hlt ⊢
  have hacc := accumulated_run hds htargets (Nat.le_of_lt hlt)
  rw [← Tree.length_filed] at hpos hlt ⊢
  refine ⟨?_, ?_, ?_⟩
  · intro i t r b hr hb
    obtain ⟨q, hq, hbq⟩ := Outcome.exists_getElem?_right hslots hb
    exact ⟨q, hbq, hacc.slotAt?_eq (Nat.le_of_lt hlt) (Tree.getElem?_filed hr hq)⟩
  · rw [hacc.exists_sequence_iff (List.ne_nil_of_length_pos hpos), written_eq_nil_iff]
  · rintro ⟨r, hr, c, hc, hfound⟩
    exact hacc.exists_mapping fun hw => hfound (written_eq_nil_iff.1 hw r hr c hc)

theorem run_slots_after_copy :
    ofTree (.sequence [.ofText "n", .sequence [.ofText "d"], .mapping []]) {} =
        .ok ⟨[.copy "n" "n", .slot [.copy "d" "d"], .slot []]⟩ ∧
      (∃ q, ofTree (.sequence [.ofText "d"]) {} = .ok q ∧
        (run ⟨[.copy "n" "n", .slot [.copy "d" "d"], .slot []]⟩
            [.mapping [("d", .ofInt 1)], .null,
              .mapping [("d", .ofInt 2), ("n", .ofText "0")]]).slotAt? 2 =
          some (q.run [.mapping [("d", .ofInt 2), ("n", .ofText "0")]])) ∧
      ∃ es, run ⟨[.copy "n" "n", .slot [.copy "d" "d"], .slot []]⟩
            [.mapping [("d", .ofInt 1)], .null,
              .mapping [("d", .ofInt 2), ("n", .ofText "0")]] = .mapping es ∧
        Entries.lookup "n" es = some (.ofText "0") := by
  have h : ofTree (.sequence [.ofText "n", .sequence [.ofText "d"], .mapping []]) {} =
      .ok ⟨[.copy "n" "n", .slot [.copy "d" "d"], .slot []]⟩ := by cbv
  obtain ⟨hslot, -, hcopied⟩ := run_slots h (by decide +kernel)
    [.mapping [("d", .ofInt 1)], .null, .mapping [("d", .ofInt 2), ("n", .ofText "0")]]
    (by decide +kernel) (by decide +kernel)
  refine ⟨h, hslot 1 0 _ _ rfl rfl, ?_⟩
  obtain ⟨es, hes, -, -, hlast⟩ :=
    hcopied ⟨_, .tail _ (.head _), ("n", "n"), by decide +kernel, by decide +kernel⟩
  exact ⟨es, hes, hlast "n" (by decide +kernel)⟩

end Projection

end TreePaths
