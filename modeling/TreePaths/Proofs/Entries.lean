import Mathlib.Data.List.Induction
import Mathlib.Logic.Function.Conjugate
import TreePaths.Entries

/-!
# Entries seen through their keys

Entries whose keys differ are determined by their keys in order and by what each key holds
(`ext_keys`). That is how entries which grew by one `update` after another are described here: a
run that updates the entry of each record's key lists the keys in the order in which they were first
met, and under each key what the records of that key make of the initial value, as if there were no
others (`foldl_update`).

Removing a key and changing the value at a key leave all else as it is, order included. So they
commute with each other, whatever the keys, and repeated keys need not be excluded for that.
-/

namespace TreePaths

theorem eraseDups_append_singleton {α : Type} [DecidableEq α] (xs : List α) (x : α) :
    (xs ++ [x]).eraseDups = if x ∈ xs then xs.eraseDups else xs.eraseDups ++ [x] := by
  rw [List.eraseDups_append]
  by_cases h : x ∈ xs <;> simp [h, List.removeAll, List.eraseDups_cons]

theorem nodup_eraseDups {α : Type} [DecidableEq α] (xs : List α) : xs.eraseDups.Nodup := by
  induction xs using List.reverseRecOn with
  | nil => simp
  | append_singleton xs x ih =>
      rw [eraseDups_append_singleton]
      split
      · exact ih
      · rename_i hx
        rw [List.nodup_append]
        refine ⟨ih, by simp, fun a ha b hb hab => hx ?_⟩
        rw [← List.mem_singleton.1 hb, ← hab]
        exact List.mem_eraseDups.1 ha

namespace Entries

universe u

variable {α : Type u}

theorem lookup_append (k : String) (es fs : Entries α) :
    lookup k (es ++ fs) = (lookup k es).or (lookup k fs) := by
  induction es with
  | nil => rfl
  | cons e es ih =>
      obtain ⟨l, a⟩ := e
      rw [List.cons_append, lookup_cons, lookup_cons, ih]
      split <;> rfl

theorem mem_of_lookup {k : String} {a : α} {es : Entries α} (h : lookup k es = some a) :
    (k, a) ∈ es := by
  induction es with
  | nil => cases h
  | cons e es ih =>
      obtain ⟨l, b⟩ := e
      rw [lookup_cons] at h
      split at h
      · rename_i hl
        rw [hl, Option.some.inj h]
        exact List.mem_cons_self
      · exact List.mem_cons_of_mem _ (ih h)

/-- A key that is new goes to the end. -/
theorem insert_of_not_mem {k : String} {es : Entries α} (h : k ∉ keys es) (a : α) :
    insert k a es = es ++ [(k, a)] := by
  induction es with
  | nil => rfl
  | cons e es ih =>
      obtain ⟨l, b⟩ := e
      rw [keys_cons, List.mem_cons, not_or] at h
      rw [insert_cons, if_neg (Ne.symm h.1), ih h.2, List.cons_append]

/-- The value of a key that is absent counts as new. -/
theorem update_of_not_mem {k : String} {es : Entries α} (h : k ∉ keys es) (new : α) (f : α → α) :
    update k new f es = insert k (f new) es := by
  rw [update, lookup_eq_none_iff.2 h, Option.getD_none]

theorem lookup_perm {es fs : Entries α} (hd : es.Distinct) (h : es.Perm fs) (k : String) :
    lookup k es = lookup k fs := by
  have hk : (keys es).Perm (keys fs) := h.map _
  cases hf : lookup k fs with
  | none =>
      rw [lookup_eq_none_iff] at hf ⊢
      exact fun he => hf (hk.mem_iff.1 he)
  | some a => exact lookup_of_mem hd (h.mem_iff.2 (mem_of_lookup hf))

theorem Distinct.modify {es : Entries α} (h : Distinct es) (k : String) (f : α → α) :
    Distinct (modify k f es) := by
  rw [Distinct, keys_modify]
  exact h

theorem keys_reverse (es : Entries α) : keys es.reverse = (keys es).reverse := by
  rw [keys, keys, List.map_reverse]

/-- Entries are determined by their keys, if these differ, and by what each key holds. -/
theorem ext_keys {es fs : Entries α} (hd : Distinct es) (hk : keys es = keys fs)
    (hl : ∀ k, lookup k es = lookup k fs) : es = fs := by
  induction es generalizing fs with
  | nil =>
      cases fs with
      | nil => rfl
      | cons f fs =>
          obtain ⟨l, b⟩ := f
          simp at hk
  | cons e es ih =>
      obtain ⟨k, a⟩ := e
      cases fs with
      | nil => simp at hk
      | cons f fs =>
          obtain ⟨l, b⟩ := f
          obtain ⟨rfl, hks⟩ : k = l ∧ keys es = keys fs := by simpa using hk
          obtain ⟨hnot, hd⟩ : k ∉ keys es ∧ Distinct es := List.nodup_cons.1 hd
          have hab : a = b := by simpa [lookup_cons] using hl k
          have hrest : ∀ l, lookup l es = lookup l fs := by
            intro l
            by_cases h : k = l
            · subst h
              rw [lookup_eq_none_iff.2 hnot, lookup_eq_none_iff.2 (hks ▸ hnot)]
            · simpa [lookup_cons, h] using hl l
          rw [hab, ih hd hks hrest]

@[simp] theorem keys_map_self (ks : List String) (g : String → α) :
    keys (ks.map fun k => (k, g k)) = ks := by
  simp [keys, Function.comp_def]

theorem lookup_map_self (ks : List String) (g : String → α) (k : String) :
    lookup k (ks.map fun k => (k, g k)) = if k ∈ ks then some (g k) else none := by
  induction ks with
  | nil => rfl
  | cons l ks ih =>
      rw [List.map_cons, lookup_cons, ih]
      by_cases h : l = k
      · simp [h]
      · simp [h, Ne.symm h]

theorem lookup_filterMap_self (ks : List String) (g : String → Option α) (k : String) :
    lookup k (ks.filterMap fun k => (g k).map fun a => (k, a)) = if k ∈ ks then g k else none := by
  induction ks with
  | nil => rfl
  | cons l ks ih =>
      by_cases h : l = k
      · subst h
        cases hg : g l <;> simp [hg, lookup_cons, ih]
      · cases hg : g l <;> simp [hg, lookup_cons, ih, h, Ne.symm h]

theorem ofList_append_singleton (es : List (String × α)) (e : String × α) :
    ofList (es ++ [e]) = insert e.1 e.2 (ofList es) := by
  rw [ofList, List.foldl_append]
  rfl

theorem keys_ofList (es : List (String × α)) : keys (ofList es) = (keys es).eraseDups := by
  induction es using List.reverseRecOn with
  | nil => rfl
  | append_singleton es e ih =>
      obtain ⟨k, a⟩ := e
      rw [ofList_append_singleton, keys_insert, ih, keys_append, keys_cons, keys_nil,
        eraseDups_append_singleton]
      simp only [List.mem_eraseDups]

/-- Entries whose keys differ are written one after another without overwriting any. -/
theorem ofList_of_distinct {es : Entries α} (hd : Distinct es) : ofList es = es := by
  induction es using List.reverseRecOn with
  | nil => rfl
  | append_singleton es e ih =>
      obtain ⟨k, a⟩ := e
      rw [Distinct, keys_append, List.nodup_append] at hd
      have hk : k ∉ keys es := fun hk => hd.2.2 k hk k (by simp) rfl
      rw [ofList_append_singleton, ih hd.1, insert_of_not_mem hk]

/-- The last value that is written to a key is found there. -/
theorem lookup_ofList (k : String) (es : List (String × α)) :
    lookup k (ofList es) = lookup k es.reverse := by
  induction es using List.reverseRecOn with
  | nil => rfl
  | append_singleton es e ih =>
      rw [ofList_append_singleton, lookup_insert, ih, List.reverse_append]
      rfl

/-- Of the keys that are picked from some entries, each is found with the value it has there. -/
theorem lookup_ofList_filterMap (ks : List String) (g : String → Option α) (k : String) :
    lookup k (ofList (ks.filterMap fun k => (g k).map fun a => (k, a))) =
      if k ∈ ks then g k else none := by
  rw [lookup_ofList, ← List.filterMap_reverse, lookup_filterMap_self]
  simp only [List.mem_reverse]

section Grouped

variable {ρ : Type u} (key : ρ → Option String)

theorem filter_key_append_singleton (rs : List ρ) (r : ρ) (k : String) :
    (rs ++ [r]).filter (fun r => key r = some k) =
      rs.filter (fun r => key r = some k) ++ if key r = some k then [r] else [] := by
  rw [List.filter_append]
  by_cases h : key r = some k <;> simp [h]

theorem filter_key_eq_nil {rs : List ρ} {k : String} (h : k ∉ rs.filterMap key) :
    rs.filter (fun r => key r = some k) = [] := by
  rw [List.filter_eq_nil_iff]
  intro r hr hk
  exact h (List.mem_filterMap.2 ⟨r, hr, of_decide_eq_true hk⟩)

/-- Updating the entry of a key that each record has or lacks amounts to one run for each key. -/
theorem foldl_update (new : α) (step : ρ → α → α) (rs : List ρ) :
    rs.foldl (fun es r => (key r).elim es fun k => update k new (step r) es) [] =
      (rs.filterMap key).eraseDups.map fun k =>
        (k, (rs.filter fun r => key r = some k).foldl (fun a r => step r a) new) := by
  induction rs using List.reverseRecOn with
  | nil => rfl
  | append_singleton rs r ih =>
      rw [List.foldl_append, List.foldl_cons, List.foldl_nil, ih, List.filterMap_append]
      simp only [filter_key_append_singleton]
      cases hr : key r with
      | none => simp [hr]
      | some k =>
          rw [Option.elim_some, List.filterMap_cons_some hr, List.filterMap_nil]
          refine ext_keys ?_ ?_ ?_
          · have hd : Distinct ((rs.filterMap key).eraseDups.map fun k =>
                (k, (rs.filter fun r => key r = some k).foldl (fun a r => step r a) new)) := by
              rw [Distinct, keys_map_self]
              exact nodup_eraseDups _
            exact hd.insert k _
          · rw [keys_update, keys_map_self, keys_map_self, eraseDups_append_singleton]
            simp only [List.mem_eraseDups]
          · intro l
            rw [lookup_update, lookup_map_self, lookup_map_self, lookup_map_self]
            by_cases h : k = l
            · subst h
              by_cases hk : k ∈ rs.filterMap key
              · simp [hk]
              · simp [hk, filter_key_eq_nil key hk]
            · simp [h, Ne.symm h]

end Grouped

section Repeated

theorem insert_insert (k : String) (a b : α) (es : Entries α) :
    insert k b (insert k a es) = insert k b es := by
  induction es with
  | nil => simp [insert_cons]
  | cons e es ih =>
      obtain ⟨l, c⟩ := e
      by_cases h : l = k
      · simp [insert_cons, h]
      · simp [insert_cons, h, ih]

theorem mem_keys_insert {k l : String} {a : α} {es : Entries α} :
    l ∈ keys (insert k a es) ↔ l = k ∨ l ∈ keys es := by
  rw [keys_insert]
  split
  · rename_i hk
    exact ⟨.inr, fun h => h.elim (fun hl => hl ▸ hk) id⟩
  · rw [List.mem_append, List.mem_singleton, or_comm]

/-- Writing to a key that is present and writing to another key commute, order included. -/
theorem insert_comm_of_mem {k l : String} {es : Entries α} (hk : k ∈ keys es) (hne : k ≠ l)
    (a b : α) : insert l b (insert k a es) = insert k a (insert l b es) := by
  induction es with
  | nil => exact absurd hk List.not_mem_nil
  | cons e es ih =>
      obtain ⟨m, c⟩ := e
      rw [keys_cons, List.mem_cons] at hk
      by_cases hm : m = k
      · rw [insert_cons k, if_pos hm, insert_cons l, if_neg hne, insert_cons l,
          if_neg (hm.trans_ne hne), insert_cons k, if_pos hm]
      · have hkes : k ∈ keys es := hk.resolve_left (Ne.symm hm)
        by_cases hl : m = l
        · rw [insert_cons k, if_neg hm, insert_cons l, if_pos hl, insert_cons l, if_pos hl,
            insert_cons k, if_neg hne.symm]
        · rw [insert_cons k, if_neg hm, insert_cons l, if_neg hl, insert_cons l, if_neg hl,
            insert_cons k, if_neg hm, ih hkes]

theorem update_update (k : String) (new : α) (f g : α → α) (es : Entries α) :
    update k new g (update k new f es) = update k new (fun a => g (f a)) es := by
  simp only [update, insert_insert, lookup_insert_self, Option.getD_some]

theorem modify_modify (k : String) (f g : α → α) (es : Entries α) :
    modify k g (modify k f es) = modify k (fun a => g (f a)) es := by
  induction es with
  | nil => rfl
  | cons e es ih =>
      obtain ⟨l, a⟩ := e
      by_cases h : l = k
      · simp [modify_cons, h]
      · simp [modify_cons, h, ih]

end Repeated

section Erased

theorem erase_cons (k l : String) (a : α) (es : Entries α) :
    erase k ((l, a) :: es) = if l = k then erase k es else (l, a) :: erase k es := by
  unfold erase
  by_cases h : l = k <;> simp [h]

theorem modify_cons_self (k : String) (f : α → α) (a : α) (es : Entries α) :
    modify k f ((k, a) :: es) = (k, f a) :: es := by
  rw [modify_cons, if_pos rfl]

theorem modify_cons_of_ne {k l : String} (h : l ≠ k) (f : α → α) (a : α) (es : Entries α) :
    modify k f ((l, a) :: es) = (l, a) :: modify k f es := by
  rw [modify_cons, if_neg h]

theorem erase_of_lookup_eq_none {k : String} {es : Entries α} (h : lookup k es = none) :
    erase k es = es := by
  have hk : k ∉ keys es := lookup_eq_none_iff.1 h
  refine List.filter_eq_self.2 fun e he => decide_eq_true fun hek => hk ?_
  exact hek ▸ List.mem_map_of_mem he

/-- Changing a value into itself changes nothing. -/
theorem modify_eq_self {k : String} {f : α → α} {es : Entries α}
    (h : ∀ a, lookup k es = some a → f a = a) : modify k f es = es := by
  induction es with
  | nil => rfl
  | cons e es ih =>
      obtain ⟨l, a⟩ := e
      by_cases hl : l = k
      · rw [modify_cons, if_pos hl, h a (by rw [lookup_cons, if_pos hl])]
      · rw [modify_cons, if_neg hl, ih fun b hb => h b (by rw [lookup_cons, if_neg hl, hb])]

/-- The value of a key that is present is changed by writing the changed value. -/
theorem modify_eq_insert {k : String} {a : α} {es : Entries α} (h : lookup k es = some a)
    (f : α → α) : modify k f es = insert k (f a) es := by
  induction es with
  | nil => cases h
  | cons e es ih =>
      obtain ⟨l, b⟩ := e
      rw [lookup_cons] at h
      by_cases hl : l = k
      · rw [if_pos hl, Option.some.injEq] at h
        rw [modify_cons, if_pos hl, insert_cons, if_pos hl, hl, h]
      · rw [if_neg hl] at h
        rw [modify_cons_of_ne hl, insert_cons, if_neg hl, ih h]

/-- Writing a value where it is found already changes nothing. -/
theorem insert_eq_self {k : String} {a : α} {es : Entries α} (h : lookup k es = some a) :
    insert k a es = es := by
  have hsame : modify k id es = es := modify_eq_self fun _ _ => rfl
  rwa [modify_eq_insert h] at hsame

theorem commute_erase (k l : String) :
    Function.Commute (erase (α := α) k) (erase l) := by
  intro es
  unfold erase
  rw [List.filter_filter, List.filter_filter]
  simp only [Bool.and_comm]

/-- Removing a key and changing a value commute, be it the value of that key or of another. -/
theorem commute_erase_modify (k l : String) (f : α → α) :
    Function.Commute (erase k) (modify l f) := by
  intro es
  induction es with
  | nil => rfl
  | cons e es ih =>
      obtain ⟨m, a⟩ := e
      by_cases hl : m = l
      · subst hl
        by_cases hk : m = k
        · subst hk
          -- The changed entry goes, and none with its key is left behind it.
          have hgone : modify m f (erase m es) = erase m es :=
            modify_eq_self fun b hb => by simp [lookup_erase] at hb
          rw [modify_cons_self, erase_cons, if_pos rfl, erase_cons, if_pos rfl, hgone]
        · rw [modify_cons_self, erase_cons, if_neg hk, erase_cons, if_neg hk, modify_cons_self]
      · by_cases hk : m = k
        · rw [modify_cons_of_ne hl, erase_cons, if_pos hk, erase_cons, if_pos hk, ih]
        · rw [modify_cons_of_ne hl, erase_cons, if_neg hk, erase_cons, if_neg hk,
            modify_cons_of_ne hl, ih]

theorem commute_modify {f g : α → α} (h : Function.Commute f g) (k l : String) :
    Function.Commute (modify k f) (modify l g) := by
  intro es
  induction es with
  | nil => rfl
  | cons e es ih =>
      obtain ⟨m, a⟩ := e
      by_cases hk : m = k <;> by_cases hl : m = l
      · subst hk
        subst hl
        rw [modify_cons_self, modify_cons_self, modify_cons_self, modify_cons_self, h a]
      · subst hk
        rw [modify_cons_of_ne hl, modify_cons_self, modify_cons_self, modify_cons_of_ne hl]
      · subst hl
        rw [modify_cons_self, modify_cons_of_ne hk, modify_cons_of_ne hk, modify_cons_self]
      · rw [modify_cons_of_ne hl, modify_cons_of_ne hk, modify_cons_of_ne hk,
          modify_cons_of_ne hl, ih]

end Erased

end Entries

end TreePaths
