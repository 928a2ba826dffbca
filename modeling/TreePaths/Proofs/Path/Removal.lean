import TreePaths.Path.Access
import TreePaths.Proofs.Tree.Pruned

/-!
# Removing along paths

`removes` answers whether `erase` changes anything: a path removes nothing from a tree if and only
if the tree stays as it was (`removes_eq_false_iff`), and once a path has removed what it addresses
there is nothing left for it to remove (`removes_erase`). What it then reads is nothing either, as
`FindsNothing` spells out for each way in which a path may end.

Erasing deletes entries of mappings and does nothing else (`pruned_erase`).

Erasing along two paths commutes (`commute_erase`), even if one of them addresses something below
what the other one removes. For in a tree from which a path removes nothing, no later removal gives
it anything to do.
-/

namespace TreePaths

/-- Changes the entries of a mapping, and nothing in any other shape. -/
def Tree.mapEntries (f : Entries Tree → Entries Tree) : Tree → Tree
  | mapping es => mapping (f es)
  | t => t

theorem Tree.mapEntries_mapEntries (f g : Entries Tree → Entries Tree) (t : Tree) :
    mapEntries g (mapEntries f t) = mapEntries (fun es => g (f es)) t := by
  cases t <;> rfl

theorem Tree.commute_mapEntries {f g : Entries Tree → Entries Tree} (h : Function.Commute f g) :
    Function.Commute (mapEntries f) (mapEntries g) := by
  intro t
  cases t with
  | mapping es => exact congrArg mapping (h es)
  | _ => rfl

theorem Tree.Pruned.mapEntries {s t : Tree} (h : s.Pruned t) {f : Entries Tree → Entries Tree}
    (hf : ∀ es fs, Entries.Thinned Pruned es fs → Entries.Thinned Pruned es (f fs)) :
    s.Pruned (Tree.mapEntries f t) := by
  cases h with
  | mapping h => exact .mapping (hf _ _ h)
  | null => exact .null
  | scalar a => exact .scalar a
  | sequence h => exact .sequence h

namespace Path

theorem erase_key (k : String) : (key k).erase = Tree.mapEntries (Entries.erase k) := by
  funext t
  cases t <;> rfl

theorem erase_down (k : String) (rest : Path) :
    (down k rest).erase = Tree.mapEntries (Entries.modify k rest.erase) := by
  funext t
  cases t <;> rfl

/-! ## Lists of keys -/

theorem erase_keys_nil : (keys []).erase = id := by
  funext t
  cases t <;> rfl

/-- A list of keys is removed one key at a time. -/
theorem erase_keys_cons (k : String) (ks : List String) :
    (keys (k :: ks)).erase = (keys ks).erase ∘ (key k).erase := by
  funext t
  cases t <;> rfl

theorem child?_erase_key (k l : String) (t : Tree) :
    ((key k).erase t).child? l = if k = l then none else t.child? l := by
  cases t with
  | mapping es => exact Entries.lookup_erase k l es
  | _ => simp [erase, Tree.child?, Tree.mapping?]

theorem child?_erase_keys (ks : List String) (l : String) (t : Tree) :
    ((keys ks).erase t).child? l = if l ∈ ks then none else t.child? l := by
  induction ks generalizing t with
  | nil => simp [erase_keys_nil]
  | cons k ks ih =>
      rw [erase_keys_cons, Function.comp_apply, ih, child?_erase_key]
      by_cases hl : l ∈ ks
      · simp [hl]
      · simp [hl, eq_comm]

theorem erase_key_of_child?_eq_none {k : String} {t : Tree} (h : t.child? k = none) :
    (key k).erase t = t := by
  cases t with
  | mapping es => rw [erase, Entries.erase_of_lookup_eq_none h]
  | _ => rfl

theorem erase_keys_of_child?_eq_none {ks : List String} {t : Tree}
    (h : ∀ k ∈ ks, t.child? k = none) : (keys ks).erase t = t := by
  induction ks with
  | nil => rw [erase_keys_nil, id]
  | cons k ks ih =>
      rw [List.forall_mem_cons] at h
      rw [erase_keys_cons, Function.comp_apply, erase_key_of_child?_eq_none h.1, ih h.2]

/-! ## What a path removes -/

theorem erase_of_removes_eq_false {p : Path} {t : Tree} (h : p.removes t = false) :
    p.erase t = t := by
  induction p generalizing t with
  | key k => exact erase_key_of_child?_eq_none (by simpa [removes] using h)
  | keys ks => exact erase_keys_of_child?_eq_none (by simpa [removes] using h)
  | push => rfl
  | each inner ih =>
      cases t with
      | sequence ts =>
          rw [erase]
          split
          · rename_i hflat
            have hnone : ∀ t ∈ ts, inner.removes t = false := by simpa [removes, hflat] using h
            rw [List.map_congr_left fun t ht => ih (hnone t ht), List.map_id']
          · rfl
      | _ => rfl
  | down k rest ih =>
      cases t with
      | mapping es =>
          rw [erase, Entries.modify_eq_self]
          intro c hc
          have hrest : rest.removes c = false := by simpa [removes, hc] using h
          exact ih hrest
      | _ => rfl

/-- A second removal has nothing to remove. -/
theorem removes_erase (p : Path) (t : Tree) : p.removes (p.erase t) = false := by
  induction p generalizing t with
  | key k => simp [removes, child?_erase_key]
  | keys ks =>
      rw [removes, List.any_eq_false]
      intro k hk
      simp [child?_erase_keys, hk]
  | push => rfl
  | each inner ih =>
      cases t with
      | sequence ts =>
          by_cases hflat : inner.isFlat <;> simp [erase, removes, hflat, ih]
      | _ => simp [erase, removes, Tree.sequence?]
  | down k rest ih =>
      cases t with
      | mapping es =>
          cases hk : Entries.lookup k es <;> simp [erase, removes, Entries.lookup_modify, hk, ih]
      | _ => rfl

/-- A path removes nothing if and only if it leaves the tree as it is. -/
theorem removes_eq_false_iff {p : Path} {t : Tree} : p.removes t = false ↔ p.erase t = t :=
  ⟨erase_of_removes_eq_false, fun h => h ▸ removes_erase p t⟩

/-! ## Deleted entries -/

section Pruned

variable {s t : Tree}

theorem pruned_erase_keys (ks : List String) (h : s.Pruned t) : s.Pruned ((keys ks).erase t) := by
  induction ks generalizing t with
  | nil =>
      rw [erase_keys_nil]
      exact h
  | cons k ks ih =>
      rw [erase_keys_cons, erase_key]
      exact ih (h.mapEntries fun _ _ hes => hes.erase k)

/-- Erasing along a path deletes entries of mappings and does nothing else. -/
theorem pruned_erase (p : Path) (h : s.Pruned t) : s.Pruned (p.erase t) := by
  induction p generalizing s t with
  | key k =>
      rw [erase_key]
      exact h.mapEntries fun _ _ hes => hes.erase k
  | keys ks => exact pruned_erase_keys ks h
  | push => exact h
  | each inner ih =>
      cases t with
      | sequence us =>
          cases h with
          | sequence h =>
              rw [erase]
              split
              · exact .sequence (List.forall₂_map_right_iff.2 (h.imp fun _ _ => ih))
              · exact .sequence h
      | _ => exact h
  | down k rest ih =>
      rw [erase_down]
      exact h.mapEntries fun _ _ hes => hes.modify k fun _ _ => ih

end Pruned

/-! ## Two removals -/

section Commute

open Function (Commute)

theorem commute_erase_keys_of_key {ks : List String} {f : Tree → Tree}
    (h : ∀ k ∈ ks, Commute (key k).erase f) : Commute (keys ks).erase f := by
  induction ks with
  | nil =>
      rw [erase_keys_nil]
      exact Function.Commute.id_left
  | cons k ks ih =>
      rw [List.forall_mem_cons] at h
      rw [erase_keys_cons]
      exact (ih h.2).comp_left h.1

/-- A path into a sequence does nothing to a mapping. -/
theorem commute_erase_each_mapEntries (inner : Path) (f : Entries Tree → Entries Tree) :
    Commute (each inner).erase (Tree.mapEntries f) := by
  intro t
  cases t with
  | sequence ts => by_cases hflat : inner.isFlat <;> simp [erase, Tree.mapEntries, hflat]
  | _ => rfl

theorem commute_erase_key (k : String) (q : Path) : Commute (key k).erase q.erase := by
  have hkey : ∀ l, Commute (key k).erase (key l).erase := by
    intro l
    rw [erase_key, erase_key]
    exact Tree.commute_mapEntries (Entries.commute_erase k l)
  cases q with
  | key l => exact hkey l
  | keys ls => exact (commute_erase_keys_of_key fun l _ => (hkey l).symm).symm
  | push => exact Function.Commute.id_right
  | each inner =>
      rw [erase_key]
      exact (commute_erase_each_mapEntries inner _).symm
  | down l rest =>
      rw [erase_key, erase_down]
      exact Tree.commute_mapEntries (Entries.commute_erase_modify k l rest.erase)

theorem commute_erase_keys (ks : List String) (q : Path) : Commute (keys ks).erase q.erase :=
  commute_erase_keys_of_key fun k _ => commute_erase_key k q

theorem commute_erase_each_down (inner : Path) (k : String) (rest : Path) :
    Commute (each inner).erase (down k rest).erase := by
  rw [erase_down]
  exact commute_erase_each_mapEntries inner _

/-- Erasing along two paths commutes. -/
theorem commute_erase (p q : Path) : Commute p.erase q.erase := by
  induction p generalizing q with
  | key k => exact commute_erase_key k q
  | keys ks => exact commute_erase_keys ks q
  | push => exact Function.Commute.id_left
  | each inner ih =>
      cases q with
      | key l => exact (commute_erase_key l (each inner)).symm
      | keys ls => exact (commute_erase_keys ls (each inner)).symm
      | push => exact Function.Commute.id_right
      | each inner' =>
          intro t
          cases t with
          | sequence ts =>
              by_cases hflat : inner.isFlat <;> by_cases hflat' : inner'.isFlat <;>
                simp [erase, hflat, hflat', (ih inner').comp_eq]
          | _ => rfl
      | down l rest => exact commute_erase_each_down inner l rest
  | down k rest ih =>
      cases q with
      | key l => exact (commute_erase_key l (down k rest)).symm
      | keys ls => exact (commute_erase_keys ls (down k rest)).symm
      | push => exact Function.Commute.id_right
      | each inner => exact (commute_erase_each_down inner k rest).symm
      | down l rest' =>
          rw [erase_down, erase_down]
          exact Tree.commute_mapEntries (Entries.commute_modify (ih rest') k l)

end Commute

/-! ## What is read afterwards -/

/-- Nothing is found where a path is read: null at a key, at most the empty mapping at a list of
keys, and at most a sequence of trees in which nothing is found at every element. -/
def FindsNothing : Path → Tree → Prop
  | key _, r => r = .null
  | keys _, r => r = .null ∨ r = .empty
  | push, r => r = .null
  | each inner, r => r = .null ∨ ∃ rs, r = .sequence rs ∧ ∀ r ∈ rs, inner.FindsNothing r
  | down _ rest, r => rest.FindsNothing r

theorem findsNothing_null (p : Path) : p.FindsNothing .null := by
  induction p with
  | key k => rfl
  | keys ks => exact .inl rfl
  | push => rfl
  | each inner => exact .inl rfl
  | down k rest ih => exact ih

theorem isFlat_iff {p : Path} : p.isFlat = true ↔ p.nesting = 0 := by
  induction p with
  | down k rest ih => exact ih
  | each inner => simp [isFlat, nesting]
  | _ => simp [isFlat, nesting]

/-- Where a path removes nothing it finds nothing, unless its brackets are too deep for removal. -/
theorem findsNothing_get {p : Path} {t : Tree} (hp : p.nesting ≤ 1) (h : p.removes t = false) :
    p.FindsNothing (p.get t) := by
  induction p generalizing t with
  | key k =>
      have hk : t.child? k = none := by simpa [removes] using h
      rw [get, hk]
      rfl
  | keys ks =>
      cases t with
      | mapping es =>
          have hks : ∀ k ∈ ks, Entries.lookup k es = none := by simpa [removes] using h
          have hnone : ks.filterMap (fun k => (Entries.lookup k es).map fun v => (k, v)) = [] :=
            List.filterMap_eq_nil_iff.2 fun k hk => by simp [hks k hk]
          right
          rw [get, Tree.mapping?_mapping]
          simp only [hnone]
          rfl
      | _ => exact .inl rfl
  | push => rfl
  | each inner ih =>
      cases t with
      | sequence ts =>
          have hinner : inner.nesting = 0 := by simpa [nesting] using hp
          have hnone : ∀ t ∈ ts, inner.removes t = false := by
            simpa [removes, isFlat_iff.2 hinner] using h
          refine .inr ⟨_, rfl, List.forall_mem_map.2 fun t ht => ih ?_ (hnone t ht)⟩
          omega
      | _ => exact .inl rfl
  | down k rest ih =>
      rw [get]
      cases hk : t.child? k with
      | none => exact findsNothing_null rest
      | some c =>
          have hrest : rest.removes c = false := by simpa [removes, hk] using h
          exact ih hp hrest

end Path

end TreePaths
