import Mathlib.Data.List.Dedup
import TreePaths.Proofs.Entries

/-!
# Related entries

A relation on values is lifted to entries: `Related R es fs` says that the two list the same keys,
each once and in any order, and hold related values under each of them. As every operation on
entries is described by what is found under each key, every one of them preserves this.
-/

namespace TreePaths

universe u

section Option

variable {α β : Type u} {R : α → β → Prop} {x : Option α} {y : Option β}

theorem getD_of_rel (h : Option.Rel R x y) {a : α} {b : β} (hab : R a b) :
    R (x.getD a) (y.getD b) := by
  cases h with
  | some h => exact h
  | none => exact hab

theorem isSome_eq_of_rel (h : Option.Rel R x y) : x.isSome = y.isSome := by
  cases h <;> rfl

theorem rel_of_isSome_eq (h : x.isSome = y.isSome)
    (hR : ∀ a b, x = some a → y = some b → R a b) : Option.Rel R x y := by
  cases x with
  | none =>
      cases y with
      | none => exact .none
      | some b => cases h
  | some a =>
      cases y with
      | none => cases h
      | some b => exact .some (hR a b rfl rfl)

theorem rel_trans {R : α → α → Prop} {x y z : Option α} (h : Option.Rel R x y)
    (h' : Option.Rel R y z) (hR : ∀ a b c, x = some a → R a b → R b c → R a c) :
    Option.Rel R x z := by
  cases h with
  | none => exact h'
  | some hab =>
      cases h' with
      | some hbc => exact .some (hR _ _ _ rfl hab hbc)

theorem exists_of_rel_some {a : α} (h : Option.Rel R (some a) y) : ∃ b, y = some b ∧ R a b := by
  cases h with
  | some h => exact ⟨_, rfl, h⟩

theorem rel_map {γ δ : Type u} {S : γ → δ → Prop} {f : α → γ} {g : β → δ}
    (h : Option.Rel R x y) (hfg : ∀ a b, R a b → S (f a) (g b)) :
    Option.Rel S (x.map f) (y.map g) := by
  cases h with
  | some h => exact .some (hfg _ _ h)
  | none => exact .none

theorem rel_bind {γ δ : Type u} {S : γ → δ → Prop} {f : α → Option γ} {g : β → Option δ}
    (h : Option.Rel R x y) (hfg : ∀ a b, R a b → Option.Rel S (f a) (g b)) :
    Option.Rel S (x.bind f) (y.bind g) := by
  cases h with
  | some h => exact hfg _ _ h
  | none => exact .none

theorem bind_eq_of_rel {γ : Type u} {f : α → Option γ} {g : β → Option γ} (h : Option.Rel R x y)
    (hfg : ∀ a b, R a b → f a = g b) : x.bind f = y.bind g := by
  cases h with
  | some h => exact hfg _ _ h
  | none => rfl

end Option

namespace Entries

variable {α β : Type u}

/-- Entries that hold related values under the same keys, each key once, in any order. -/
structure Related (R : α → β → Prop) (es : Entries α) (fs : Entries β) : Prop where
  left : es.Distinct
  right : fs.Distinct
  found : ∀ k, Option.Rel R (es.lookup k) (fs.lookup k)

namespace Related

variable {R : α → β → Prop} {es : Entries α} {fs : Entries β}

theorem nil : Related R [] [] where
  left := List.nodup_nil
  right := List.nodup_nil
  found := fun _ => .none

theorem congr_right {gs : Entries β} (h : Related R es fs) (hd : gs.Distinct)
    (hl : ∀ k, lookup k gs = lookup k fs) : Related R es gs where
  left := h.left
  right := hd
  found := by
    intro k
    rw [hl]
    exact h.found k

theorem mem_keys_iff (h : Related R es fs) (k : String) : k ∈ es.keys ↔ k ∈ fs.keys := by
  rw [← has_iff, ← has_iff, has, has, isSome_eq_of_rel (h.found k)]

theorem keys_perm (h : Related R es fs) : es.keys.Perm fs.keys :=
  (List.perm_ext_iff_of_nodup h.left h.right).2 h.mem_keys_iff

theorem length_eq (h : Related R es fs) : es.length = fs.length := by
  simpa [keys] using h.keys_perm.length_eq

theorem insert (h : Related R es fs) (k : String) {a : α} {b : β} (hab : R a b) :
    Related R (Entries.insert k a es) (Entries.insert k b fs) where
  left := h.left.insert k a
  right := h.right.insert k b
  found := by
    intro l
    rw [lookup_insert, lookup_insert]
    split
    · exact .some hab
    · exact h.found l

theorem update (h : Related R es fs) (k : String) {a : α} {b : β} (hab : R a b) {f : α → α}
    {g : β → β} (hfg : ∀ a b, R a b → R (f a) (g b)) :
    Related R (Entries.update k a f es) (Entries.update k b g fs) :=
  h.insert k (hfg _ _ (getD_of_rel (h.found k) hab))

theorem erase (h : Related R es fs) (k : String) :
    Related R (Entries.erase k es) (Entries.erase k fs) where
  left := h.left.erase k
  right := h.right.erase k
  found := by
    intro l
    rw [lookup_erase, lookup_erase]
    split
    · exact .none
    · exact h.found l

/-- An entry that is removed and written again stands elsewhere, and nothing else has changed. -/
theorem insert_erase {R : α → α → Prop} {es : Entries α} (h : Related R es es) {k : String} {a : α}
    (hk : lookup k es = some a) : Related R (Entries.insert k a (Entries.erase k es)) es where
  left := (h.left.erase k).insert k a
  right := h.left
  found := by
    intro l
    rw [lookup_insert, lookup_erase]
    split
    · rename_i hl
      rw [← hk, hl]
      exact h.found l
    · exact h.found l

theorem modify (h : Related R es fs) (k : String) {f : α → α} {g : β → β}
    (hfg : ∀ a b, R a b → R (f a) (g b)) :
    Related R (Entries.modify k f es) (Entries.modify k g fs) where
  left := h.left.modify k f
  right := h.right.modify k g
  found := by
    intro l
    rw [lookup_modify, lookup_modify]
    split
    · exact rel_map (h.found l) hfg
    · exact h.found l

theorem ofList_filterMap (ks : List String) {f : String → Option α} {g : String → Option β}
    (hfg : ∀ k, Option.Rel R (f k) (g k)) :
    Related R (ofList (ks.filterMap fun k => (f k).map fun a => (k, a)))
      (ofList (ks.filterMap fun k => (g k).map fun b => (k, b))) where
  left := distinct_ofList _
  right := distinct_ofList _
  found := by
    intro k
    rw [lookup_ofList_filterMap, lookup_ofList_filterMap]
    split
    · exact hfg k
    · exact .none

theorem trans {R : α → α → Prop} {es fs gs : Entries α} (h : Related R es fs)
    (h' : Related R fs gs) (hR : ∀ e ∈ es, ∀ b c, R e.2 b → R b c → R e.2 c) :
    Related R es gs where
  left := h.left
  right := h'.right
  found := fun k => rel_trans (h.found k) (h'.found k) fun _ b c hk =>
    hR _ (mem_of_lookup hk) b c

end Related

end Entries

end TreePaths
